import Mathlib.Algebra.Order.Sub.Basic
import Mathlib.Data.Nat.SuccPred
import GraphEngine.FastGraph.FastNode

/-! The vectors of a node as slots, one for each direction and index, and what recording, erasing and moving an edge do
to the entries and to the counters. -/

namespace GraphEngine.FastGraph

open List

theorem sizeT_inj {a b : Int32} : sizeT a = sizeT b ↔ a = b := by
  rw [← Int32.toInt_inj]
  have := a.le_toInt
  have := a.toInt_lt
  have := b.le_toInt
  have := b.toInt_lt
  unfold sizeT
  omega

def Storable (place : Nat) : Prop := sizeT (Int32.ofNat place) = place

theorem toInt_ofNat_le (n : Nat) : (Int32.ofNat n).toInt ≤ n := by
  rw [Int32.toInt_ofNat']
  have := Int.emod_nonneg (n : Int) (b := Int32.size) (by decide)
  simp only [Int.bmod_def,Int32.size] at *
  split <;> omega

def live {Edge : Type} (vector : List (Option Edge)) : Nat := vector.countP (·.isSome)

section Vectors

variable {Edge : Type} {vector : List (Option Edge)} {edge : Edge} {place : Nat}

theorem live_append_some : live (vector ++ [some edge]) = live vector + 1 := by simp [live]

theorem live_set_some (vacant : vector[place]? = some none) : live (vector.set place (some edge)) = live vector + 1 := by
  obtain ⟨bound,entry⟩ := List.getElem?_eq_some_iff.mp vacant
  rw [live,countP_set bound]
  simp [entry,live]

theorem live_set_none (held : vector[place]? = some (some edge)) : live (vector.set place none) = live vector - 1 := by
  obtain ⟨bound,entry⟩ := List.getElem?_eq_some_iff.mp held
  rw [live,countP_set bound]
  simp [entry,live]

theorem live_pos (held : vector[place]? = some (some edge)) : 0 < live vector := by
  rw [live,countP_pos_iff]
  exact ⟨_,mem_of_getElem? held,rfl⟩

variable {e : Edge} {p cur replace : Nat}

theorem getElem?_append_some : (vector ++ [some edge])[p]? = some (some e) ↔
    vector[p]? = some (some e) ∨ (p = vector.length ∧ e = edge) := by
  rw [getElem?_append]
  split
  · next inside => simp [Nat.ne_of_lt inside]
  · next outside =>
    rw [getElem?_eq_none (Nat.le_of_not_lt outside)]
    by_cases last : p = vector.length
    · simp [last,eq_comm]
    · simp [last,Nat.sub_eq_zero_iff_le,show ¬p ≤ vector.length by omega]

theorem getElem?_set_none : (vector.set place none)[p]? = some (some e) ↔ vector[p]? = some (some e) ∧ p ≠ place := by
  rw [getElem?_set]
  split
  · next same => split <;> simp [same]
  · next different => simp [Ne.symm different]

theorem getElem?_moveEntry (curBound : cur < vector.length)
    (replaceBound : replace < vector.length) : (FastNode.moveEntry vector cur replace)[p]? = some (some e) ↔
      p ≠ cur ∧ vector[if p = replace then cur else p]? = some (some e) := by
  rw [FastNode.moveEntry,getElem?_set_none,getElem?_set,and_comm]
  refine and_congr_right fun _ => ?_
  by_cases same : p = replace
  · rw [if_pos same.symm,if_pos replaceBound,if_pos same,getD_eq_getElem?_getD,getElem?_eq_getElem curBound]
    rfl
  · rw [if_neg (Ne.symm same),if_neg same]

theorem live_moveEntry (curBound : cur < vector.length) (vacant : vector[replace]? = some none) :
    live (FastNode.moveEntry vector cur replace) = live vector := by
  obtain ⟨bound,entry⟩ := List.getElem?_eq_some_iff.mp vacant
  rw [FastNode.moveEntry,getD_eq_getElem?_getD,getElem?_eq_getElem curBound,Option.getD_some,live]
  by_cases same : cur = replace
  · subst same
    rw [set_getElem_self,countP_set bound]
    simp [entry,live]
  · rw [countP_set (by rwa [length_set]),countP_set bound,getElem_set_ne (Ne.symm same),entry]
    simp [live]

theorem sum_set (numbers : List Nat) (value : Nat) (bound : place < numbers.length) :
    (numbers.set place value).sum + numbers.getD place 0 = numbers.sum + value := by
  induction numbers generalizing place with
  | nil => simp at bound
  | cons first rest ih =>
    cases place with
    | zero => simp; omega
    | succ place =>
      have := ih (Nat.lt_of_succ_lt_succ bound)
      simp only [set_cons_succ,sum_cons,getD_cons_succ]
      omega

end Vectors

namespace EdgeCounts

def up (counts : EdgeCounts) : DirectionType → Int32 → EdgeCounts
  | .kDirectionInType,index =>
    if index = kControlEdgeIndex then { counts with inControlEdgeCount := counts.inControlEdgeCount + 1 }
    else { counts with inDataEdgesCount := counts.inDataEdgesCount + 1 }
  | .kDirectionOutType,index =>
    if index = kControlEdgeIndex then { counts with outControlEdgesCount := counts.outControlEdgesCount + 1 }
    else { counts with
      totalNum := counts.totalNum + 1
      perEdgesNum := counts.perEdgesNum.set (sizeT index) (counts.perEdgesNum.getD (sizeT index) 0 + 1) }

def down (counts : EdgeCounts) : DirectionType → Int32 → EdgeCounts
  | .kDirectionInType,index =>
    if index = kControlEdgeIndex then { counts with inControlEdgeCount := counts.inControlEdgeCount - 1 }
    else { counts with inDataEdgesCount := counts.inDataEdgesCount - 1 }
  | .kDirectionOutType,index =>
    if index = kControlEdgeIndex then { counts with outControlEdgesCount := counts.outControlEdgesCount - 1 }
    else { counts with
      totalNum := counts.totalNum - 1
      perEdgesNum := counts.perEdgesNum.set (sizeT index) (counts.perEdgesNum.getD (sizeT index) 0 - 1) }

theorem down_up (counts : EdgeCounts) (type : DirectionType) (index : Int32) :
    (counts.up type index).down type index = counts := by
  by_cases control : index = kControlEdgeIndex
  · cases type <;> simp [up,down,control]
  · cases type with
    | kDirectionInType => simp [up,down,control]
    | kDirectionOutType =>
      by_cases bound : sizeT index < counts.perEdgesNum.length
      · simp [up,down,control,getD_eq_getElem?_getD,bound]
      · simp [up,down,control,set_eq_of_length_le (Nat.le_of_not_lt bound)]

end EdgeCounts

def FastEdge.endOf {Node : Type} (edge : FastEdge Node) : DirectionType → Option Node
  | .kDirectionInType => edge.dst
  | .kDirectionOutType => edge.src

def FastEdge.index {Node : Type} (edge : FastEdge Node) : DirectionType → Int32
  | .kDirectionInType => edge.dstInput
  | .kDirectionOutType => edge.srcOutput

def FastEdge.position {Node : Type} (edge : FastEdge Node) : DirectionType → Int32
  | .kDirectionInType => edge.inEdgeIndex
  | .kDirectionOutType => edge.outEdgeIndex

namespace FastNode

variable {Node Edge : Type}

def slot (node : FastNode Edge) : DirectionType → Int32 → List (Option Edge)
  | .kDirectionInType,index =>
    if index = kControlEdgeIndex then node.inControlEdges else node.inDataEdges[sizeT index]?.toList
  | .kDirectionOutType,index => if index = kControlEdgeIndex then node.outControlEdges else node.outDataVector index

def Holds (node : FastNode Edge) (type : DirectionType) (index : Int32) (place : Nat) (edge : Edge) : Prop :=
  (node.slot type index)[place]? = some (some edge)

def countEntries (node : FastNode Edge) : EdgeCounts where
  inDataEdgesCount := live node.inDataEdges
  inControlEdgeCount := live node.inControlEdges
  outControlEdgesCount := live node.outControlEdges
  totalNum := (node.outDataEdges.map live).sum
  perEdgesNum := node.outDataEdges.map live

def Usable (node : FastNode Edge) (type : DirectionType) (index : Int32) : Prop :=
  index = kControlEdgeIndex ∨ node.checkDataIndexIsValid index type

structure Changed (node changed : FastNode Edge) (type : DirectionType) (index : Int32) (new : List (Option Edge)) :
    Prop where
  slots : ∀ t i, changed.slot t i = if t = type ∧ i = index then new else node.slot t i
  inNum : changed.dataInNum = node.dataInNum
  outNum : changed.dataOutNum = node.dataOutNum

variable {node changed : FastNode Edge} {type : DirectionType} {index : Int32} {place : Nat} {objects : Edge → FastEdge Node}
  {edge : Edge}

theorem slot_in_control : node.slot .kDirectionInType kControlEdgeIndex = node.inControlEdges := by simp [slot]

theorem slot_out_control : node.slot .kDirectionOutType kControlEdgeIndex = node.outControlEdges := by simp [slot]

theorem slot_out_data (data : index ≠ kControlEdgeIndex) :
    node.slot .kDirectionOutType index = node.outDataVector index := if_neg data

theorem slot_in_data (data : index ≠ kControlEdgeIndex) (bound : sizeT index < node.dataInNum) :
    node.slot .kDirectionInType index = [node.inDataEdges.getD (sizeT index) none] := by
  rw [← node.inData_size] at bound
  simp [slot,data,bound]

theorem sizeT_lt_of_valid (valid : node.checkDataIndexIsValid index type) : sizeT index < node.ioSize type := by
  have inBound := toInt_ofNat_le node.dataInNum
  have outBound := toInt_ofNat_le node.dataOutNum
  cases type <;> simp only [checkDataIndexIsValid,Bool.and_eq_true,decide_eq_true_eq] at valid <;>
    simp only [sizeT,ioSize] <;> omega

variable (vector : List (Option Edge))

theorem setInControl_changed (count : Nat) :
    Changed node (node.setInControl vector count) .kDirectionInType kControlEdgeIndex vector := by
  refine ⟨?_,rfl,rfl⟩
  intro t i
  cases t <;> simp only [slot,setInControl] <;> split <;> simp_all [outDataVector]

theorem setOutControl_changed (count : Nat) :
    Changed node (node.setOutControl vector count) .kDirectionOutType kControlEdgeIndex vector := by
  refine ⟨?_,rfl,rfl⟩
  intro t i
  cases t <;> simp only [slot,setOutControl] <;> split <;> simp_all [outDataVector]

theorem setInData_changed (data : index ≠ kControlEdgeIndex) (bound : sizeT index < node.dataInNum)
    (entry : Option Edge) (count : Nat) :
    Changed node (node.setInData index entry count) .kDirectionInType index [entry] := by
  refine ⟨?_,rfl,rfl⟩
  intro t i
  rw [← node.inData_size] at bound
  cases t with
  | kDirectionOutType => simp [slot,setInData,outDataVector]
  | kDirectionInType =>
    by_cases same : i = index
    · subst same
      simp [slot,setInData,data,bound]
    · have apart : sizeT index ≠ sizeT i := fun h => same (sizeT_inj.mp h).symm
      simp [slot,setInData,same,getElem?_set_ne apart]

theorem setOutData_changed (data : index ≠ kControlEdgeIndex) (bound : sizeT index < node.dataOutNum)
    (vector : List (Option Edge)) (total count : Nat) :
    Changed node (node.setOutData index vector total count) .kDirectionOutType index vector := by
  refine ⟨?_,rfl,rfl⟩
  intro t i
  rw [← node.outData_size] at bound
  cases t with
  | kDirectionInType => simp [slot,setOutData]
  | kDirectionOutType =>
    by_cases same : i = index
    · subst same
      simp [slot,setOutData,outDataVector,getD_eq_getElem?_getD,data,bound]
    · have apart : sizeT index ≠ sizeT i := fun h => same (sizeT_inj.mp h).symm
      simp [slot,setOutData,outDataVector,getD_eq_getElem?_getD,same,getElem?_set_ne apart]

structure Adds (node changed : FastNode Edge) (type : DirectionType) (index : Int32) (place : Nat) (edge : Edge) :
    Prop where
  holds : ∀ t i p e, changed.Holds t i p e ↔ node.Holds t i p e ∨ (t = type ∧ i = index ∧ p = place ∧ e = edge)
  vacant : ∀ e, ¬node.Holds type index place e
  usable : ∀ t i, changed.Usable t i ↔ node.Usable t i
  counts : changed.counts = node.counts.up type index
  entries : changed.countEntries = node.countEntries.up type index

structure Drops (node changed : FastNode Edge) (type : DirectionType) (index : Int32) (place : Nat) : Prop where
  holds : ∀ t i p e, changed.Holds t i p e ↔ node.Holds t i p e ∧ ¬(t = type ∧ i = index ∧ p = place)
  usable : ∀ t i, changed.Usable t i ↔ node.Usable t i
  counts : changed.counts = node.counts.down type index
  entries : changed.countEntries = node.countEntries.down type index

theorem Adds.counted (adds : Adds node changed type index place edge) (counted : node.counts = node.countEntries) :
    changed.counts = changed.countEntries := by
  rw [adds.counts,adds.entries,counted]

theorem Drops.counted (drops : Drops node changed type index place) (counted : node.counts = node.countEntries) :
    changed.counts = changed.countEntries := by
  rw [drops.counts,drops.entries,counted]

namespace Changed

variable {new : List (Option Edge)} (change : Changed node changed type index new)
include change

theorem usable (t : DirectionType) (i : Int32) : changed.Usable t i ↔ node.Usable t i := by
  unfold Usable checkDataIndexIsValid
  rw [change.inNum,change.outNum]

variable {p : Nat} {e : Edge}

theorem holds_same : changed.Holds type index p e ↔ new[p]? = some (some e) := by
  rw [Holds,change.slots,if_pos ⟨rfl,rfl⟩]

theorem holds_other {t : DirectionType} {i : Int32}
    (other : ¬(t = type ∧ i = index)) : changed.Holds t i p e ↔ node.Holds t i p e := by
  rw [Holds,change.slots,if_neg other,Holds]

theorem adds (entry : ∀ p e, new[p]? = some (some e) ↔ (node.slot type index)[p]? = some (some e) ∨ (p = place ∧ e = edge))
    (vacant : ∀ e, (node.slot type index)[place]? ≠ some (some e)) (counts : changed.counts = node.counts.up type index)
    (entries : changed.countEntries = node.countEntries.up type index) : Adds node changed type index place edge := by
  refine ⟨?_,vacant,change.usable,counts,entries⟩
  intro t i p e
  by_cases same : t = type ∧ i = index
  · obtain ⟨rfl,rfl⟩ := same
    rw [change.holds_same,entry,Holds]
    simp
  · rw [change.holds_other same]
    exact ⟨.inl,fun h => h.resolve_right fun h => same ⟨h.1,h.2.1⟩⟩

theorem drops (entry : ∀ p e, new[p]? = some (some e) ↔ (node.slot type index)[p]? = some (some e) ∧ p ≠ place)
    (counts : changed.counts = node.counts.down type index)
    (entries : changed.countEntries = node.countEntries.down type index) : Drops node changed type index place := by
  refine ⟨?_,change.usable,counts,entries⟩
  intro t i p e
  by_cases same : t = type ∧ i = index
  · obtain ⟨rfl,rfl⟩ := same
    rw [change.holds_same,entry,Holds]
    simp
  · rw [change.holds_other same]
    exact ⟨fun h => ⟨h,fun h => same ⟨h.1,h.2.1⟩⟩,And.left⟩

omit change

theorem appends {vector : List (Option Edge)} (change : Changed node changed type index (vector ++ [some edge]))
    (slot : node.slot type index = vector) (counts : changed.counts = node.counts.up type index)
    (entries : changed.countEntries = node.countEntries.up type index) : Adds node changed type index vector.length edge := by
  subst slot
  exact change.adds (fun _ _ => getElem?_append_some) (by simp) counts entries

theorem erases {vector : List (Option Edge)} (change : Changed node changed type index (vector.set place none))
    (slot : node.slot type index = vector) (counts : changed.counts = node.counts.down type index)
    (entries : changed.countEntries = node.countEntries.down type index) : Drops node changed type index place := by
  subst slot
  exact change.drops (fun _ _ => getElem?_set_none) counts entries

end Changed

theorem perEdges_countEntries : node.countEntries.perEdgesNum.getD (sizeT index) 0 = live (node.outDataVector index) := by
  simp only [countEntries,outDataVector,getD_eq_getElem?_getD,getElem?_map]
  cases node.outDataEdges[sizeT index]? <;> rfl

theorem countEntries_setOutData (bound : sizeT index < node.dataOutNum) (vector : List (Option Edge)) (total count : Nat) :
    (node.setOutData index vector total count).countEntries = { node.countEntries with
      totalNum := node.countEntries.totalNum + live vector - live (node.outDataVector index)
      perEdgesNum := node.countEntries.perEdgesNum.set (sizeT index) (live vector) } := by
  have inside : sizeT index < node.countEntries.perEdgesNum.length := by
    rwa [countEntries,length_map,node.outData_size]
  have sum := sum_set node.countEntries.perEdgesNum (live vector) inside
  rw [perEdges_countEntries] at sum
  simp only [countEntries] at sum
  simp only [countEntries,setOutData,map_set,EdgeCounts.mk.injEq,true_and,and_true]
  omega

variable {vector : List (Option Edge)} {position : Int32}

theorem getD_eq_some_iff : vector.getD place none = some edge ↔ vector[place]? = some (some edge) := by
  rw [getD_eq_getElem?_getD]
  cases vector[place]? <;> simp

variable [DecidableEq Edge]

theorem asserted_iff {Result : Type} (bad good : Result) :
    (if ¬place < vector.length then bad else if vector.getD place none ≠ some edge then bad else good) =
      if vector[place]? = some (some edge) then good else bad := by
  by_cases held : vector[place]? = some (some edge)
  · have bound := (List.getElem?_eq_some_iff.mp held).1
    rw [if_neg (not_not.mpr bound),if_neg (not_not.mpr (getD_eq_some_iff.mpr held)),if_pos held]
  · rw [if_neg held,if_pos (mt getD_eq_some_iff.mp held),ite_self]

section
variable (node)

theorem recordEdge_out (same : (objects edge).srcOutput = index) (usable : node.Usable .kDirectionOutType index) :
    ∃ changed, node.recordEdge objects edge .kDirectionOutType = (.success,changed,setOutIndex objects edge
      (Int32.ofNat (node.slot .kDirectionOutType index).length)) ∧
    Adds node changed .kDirectionOutType index (node.slot .kDirectionOutType index).length edge ∧
    changed.inControlEdges = node.inControlEdges := by
  by_cases control : index = kControlEdgeIndex
  · subst control
    rw [slot_out_control]
    refine ⟨_,by simp only [recordEdge,same,if_true,recordOutControlEdge]; rfl,?_,?_⟩
    on_goal 2 => rfl
    apply (setOutControl_changed _ _).appends slot_out_control
    · simp [setOutControl,EdgeCounts.up]
    · simp [setOutControl,EdgeCounts.up,countEntries,live_append_some]
  · have valid := usable.resolve_left control
    have bound : sizeT index < node.dataOutNum := sizeT_lt_of_valid valid
    have inside : sizeT index < node.outDataEdges.length := by rwa [node.outData_size]
    rw [slot_out_data control]
    refine ⟨_,by simp only [recordEdge,same,control,inside,recordOutDataEdge,valid]; rfl,?_,?_⟩
    on_goal 2 => rfl
    apply (setOutData_changed control bound _ _ _).appends (slot_out_data control)
    · simp [setOutData,EdgeCounts.up,control,perEdges]
    · rw [countEntries_setOutData bound,live_append_some]
      simp only [EdgeCounts.up,control,if_false,perEdges_countEntries,EdgeCounts.mk.injEq,true_and,and_true]
      omega

theorem recordEdge_out_failed (same : (objects edge).srcOutput = index)
    (usable : ¬node.Usable .kDirectionOutType index) : ∃ position,
    node.recordEdge objects edge .kDirectionOutType = (.failed,node,setOutIndex objects edge position) := by
  simp only [Usable,not_or,Bool.not_eq_true] at usable
  by_cases inside : sizeT index < node.outDataEdges.length
  · refine ⟨Int32.ofNat (node.outDataVector index).length,?_⟩
    simp [recordEdge,same,usable.1,inside,recordOutDataEdge,usable.2]
  · subst same
    refine ⟨(objects edge).outEdgeIndex,?_⟩
    simp [recordEdge,usable.1,inside,setOutIndex]

theorem recordEdge_in (same : (objects edge).dstInput = index) :
    (∃ changed place, node.recordEdge objects edge .kDirectionInType =
        (.success,changed,setInIndex objects edge (Int32.ofNat place)) ∧
      Adds node changed .kDirectionInType index place edge ∧ node.Usable .kDirectionInType index ∧
      place = if index = kControlEdgeIndex then node.inControlEdges.length else 0) ∨
    index ≠ kControlEdgeIndex ∧
      node.recordEdge objects edge .kDirectionInType = (.failed,node,setInIndex objects edge 0) := by
  by_cases control : index = kControlEdgeIndex
  · subst control
    refine .inl ⟨_,node.inControlEdges.length,by simp only [recordEdge,same,if_true,recordInControlEdge]; rfl,?_,.inl rfl,
      by simp⟩
    apply (setInControl_changed _ _).appends slot_in_control
    · simp [setInControl,EdgeCounts.up]
    · simp [setInControl,EdgeCounts.up,countEntries,live_append_some]
  by_cases valid : node.checkDataIndexIsValid index .kDirectionInType
  · have bound : sizeT index < node.dataInNum := sizeT_lt_of_valid valid
    by_cases vacant : node.inDataEdges.getD (sizeT index) none = none
    · refine .inl ⟨_,0,by simp only [recordEdge,same,control,recordInDataEdge,valid,vacant]; rfl,?_,.inr valid,
        by simp [control]⟩
      have slotEq : node.slot .kDirectionInType index = [none] := by rw [slot_in_data control bound,vacant]
      apply (setInData_changed control bound _ _).adds
      · intro p e
        rw [slotEq]
        cases p <;> simp [eq_comm]
      · rw [slotEq]
        simp
      · simp [setInData,EdgeCounts.up,control]
      · have inside : sizeT index < node.inDataEdges.length := by rwa [node.inData_size]
        have entry : node.inDataEdges[sizeT index]? = some none := by
          rw [getD_eq_getElem?_getD,getElem?_eq_getElem inside,Option.getD_some] at vacant
          rw [getElem?_eq_getElem inside,vacant]
        simp [setInData,EdgeCounts.up,countEntries,control,live_set_some entry]
    · exact .inr ⟨control,by simp [recordEdge,same,control,recordInDataEdge,valid,vacant,-getD_eq_getElem?_getD]⟩
  · exact .inr ⟨control,by simp [recordEdge,same,control,recordInDataEdge,valid]⟩

theorem eraseEdge_out (same : (objects edge).srcOutput = index) (usable : node.Usable .kDirectionOutType index)
    (held : node.Holds .kDirectionOutType index (sizeT (objects edge).outEdgeIndex) edge) : ∃ changed,
    node.eraseEdge objects edge .kDirectionOutType = (.success,changed) ∧
    Drops node changed .kDirectionOutType index (sizeT (objects edge).outEdgeIndex) := by
  by_cases control : index = kControlEdgeIndex
  · subst control
    rw [Holds,slot_out_control] at held
    refine ⟨_,by simp only [eraseEdge,same,if_true,eraseOutControlEdge,asserted_iff]; rw [if_pos held],?_⟩
    apply (setOutControl_changed _ _).erases slot_out_control
    · simp [setOutControl,EdgeCounts.down]
    · simp [setOutControl,EdgeCounts.down,countEntries,live_set_none held]
  · have valid := usable.resolve_left control
    have inside : sizeT index < node.dataOutNum := sizeT_lt_of_valid valid
    rw [Holds,slot_out_data control] at held
    refine ⟨_,by simp only [eraseEdge,same,control,eraseOutDataEdge,valid,asserted_iff]; rw [if_pos held]; rfl,?_⟩
    apply (setOutData_changed control inside _ _ _).erases (slot_out_data control)
    · simp [setOutData,EdgeCounts.down,control,perEdges]
    · have positive := live_pos held
      rw [countEntries_setOutData inside,live_set_none held]
      simp only [EdgeCounts.down,control,if_false,perEdges_countEntries,EdgeCounts.mk.injEq,true_and,and_true]
      omega

theorem eraseEdge_out_failed (same : (objects edge).srcOutput = index)
    (absent : ¬node.Holds .kDirectionOutType index (sizeT (objects edge).outEdgeIndex) edge) :
    node.eraseEdge objects edge .kDirectionOutType = (.failed,node) := by
  by_cases control : index = kControlEdgeIndex
  · subst control
    rw [Holds,slot_out_control] at absent
    simp only [eraseEdge,same,if_true,eraseOutControlEdge,asserted_iff]
    exact if_neg absent
  · rw [Holds,slot_out_data control] at absent
    simp only [eraseEdge,same,control,eraseOutDataEdge,asserted_iff]
    rw [if_neg absent,if_neg not_false,ite_self]

theorem eraseEdge_in (same : (objects edge).dstInput = index) (usable : node.Usable .kDirectionInType index)
    (held : node.Holds .kDirectionInType index (sizeT (objects edge).inEdgeIndex) edge) : ∃ changed,
    node.eraseEdge objects edge .kDirectionInType = (.success,changed) ∧
    Drops node changed .kDirectionInType index (sizeT (objects edge).inEdgeIndex) := by
  by_cases control : index = kControlEdgeIndex
  · subst control
    rw [Holds,slot_in_control] at held
    refine ⟨_,by simp only [eraseEdge,same,if_true,eraseInControlEdge,asserted_iff]; rw [if_pos held],?_⟩
    apply (setInControl_changed _ _).erases slot_in_control
    · simp [setInControl,EdgeCounts.down]
    · simp [setInControl,EdgeCounts.down,countEntries,live_set_none held]
  · have valid := usable.resolve_left control
    have inside : sizeT index < node.dataInNum := sizeT_lt_of_valid valid
    have slotEq := slot_in_data control inside
    rw [Holds,slotEq] at held
    -- the slot has one entry, so that the stored position is 0
    obtain ⟨first,entry⟩ : sizeT (objects edge).inEdgeIndex = 0 ∧ node.inDataEdges.getD (sizeT index) none = some edge := by
      generalize sizeT (objects edge).inEdgeIndex = place at held
      cases place <;> simp_all
    have stored := getD_eq_some_iff.mp entry
    refine ⟨_,by simp only [eraseEdge,same,control,eraseInDataEdge,valid,entry]; simp; rfl,?_⟩
    apply (setInData_changed control inside _ _).drops
    · intro p e
      rw [slotEq,first]
      cases p <;> simp
    · simp [setInData,EdgeCounts.down,control]
    · simp [setInData,EdgeCounts.down,countEntries,control,live_set_none stored]

end

/-- `MoveEdge` stores the new position in the edge that it has moved. -/
def movedObjects (objects : Edge → FastEdge Node) (type : DirectionType) (moved : Option Edge) (position : Int32) :
    Edge → FastEdge Node :=
  match moved with
  | none => objects
  | some edge => if type = .kDirectionInType then setInIndex objects edge position else setOutIndex objects edge position

theorem movedObjects_other {moved : Option Edge} {e : Edge} (other : moved ≠ some e) :
    movedObjects objects type moved position e = objects e := by
  cases moved with
  | none => rfl
  | some edge =>
    have different : e ≠ edge := fun same => other (same ▸ rfl)
    unfold movedObjects setInIndex setOutIndex
    dsimp only
    split <;> rw [Function.update_of_ne different]

theorem movedObjects_self (t : DirectionType) :
    (movedObjects objects type (some edge) position edge).endOf t = (objects edge).endOf t ∧
    (movedObjects objects type (some edge) position edge).index t = (objects edge).index t ∧
    (movedObjects objects type (some edge) position edge).position t =
      if t = type then position else (objects edge).position t := by
  cases type <;> cases t <;> simp [movedObjects,setInIndex,setOutIndex,FastEdge.endOf,FastEdge.index,FastEdge.position]

variable {ioIdx cur replace : Int32}

theorem moveEdge_rejected (rejected : node.checkAllInputParamter type ioIdx cur replace ≠ .success) :
    (node.moveEdge objects type ioIdx cur replace).2 = (node,objects) := by
  unfold moveEdge
  split
  · next accepted => exact absurd accepted rejected
  · rfl

theorem moveEdge_in_data (data : ioIdx ≠ kControlEdgeIndex) :
    (node.moveEdge objects .kDirectionInType ioIdx cur replace).2 = (node,objects) := by
  unfold moveEdge
  split
  · simp [data]
  · rfl

omit [DecidableEq Edge] in
theorem edgeSize_eq (moving : ¬(type = .kDirectionInType ∧ ioIdx ≠ kControlEdgeIndex)) :
    node.edgeSize type ioIdx = (node.slot type ioIdx).length := by
  unfold edgeSize slot
  cases type <;> by_cases control : ioIdx = kControlEdgeIndex <;> simp_all

theorem moveEdge_moves (objects : Edge → FastEdge Node)
    (accepted : node.checkAllInputParamter type ioIdx cur replace = .success)
    (moving : ¬(type = .kDirectionInType ∧ ioIdx ≠ kControlEdgeIndex)) : ∃ changed,
    (node.moveEdge objects type ioIdx cur replace).2 = (changed,movedObjects objects type
      ((moveEntry (node.slot type ioIdx) (sizeT cur) (sizeT replace)).getD (sizeT replace) none) replace) ∧
    Changed node changed type ioIdx (moveEntry (node.slot type ioIdx) (sizeT cur) (sizeT replace)) ∧
    changed.counts = node.counts ∧
    (live (moveEntry (node.slot type ioIdx) (sizeT cur) (sizeT replace)) = live (node.slot type ioIdx) →
      changed.countEntries = node.countEntries) ∧
    sizeT cur < (node.slot type ioIdx).length ∧ sizeT replace < (node.slot type ioIdx).length := by
  have bounds : sizeT cur < (node.slot type ioIdx).length ∧ sizeT replace < (node.slot type ioIdx).length ∧
      (ioIdx ≠ kControlEdgeIndex → sizeT ioIdx < node.ioSize type) := by
    unfold checkAllInputParamter at accepted
    rw [edgeSize_eq moving] at accepted
    split at accepted
    · cases accepted
    split at accepted
    · cases accepted
    split at accepted
    · cases accepted
    next outside small => exact ⟨by omega,by omega,fun data => Nat.lt_of_not_le fun h => outside ⟨data,h⟩⟩
  obtain ⟨curBound,replaceBound,inside⟩ := bounds
  cases type with
  | kDirectionInType =>
    have control : ioIdx = kControlEdgeIndex := by
      by_contra data
      exact moving ⟨rfl,data⟩
    subst control
    rw [slot_in_control] at curBound replaceBound ⊢
    refine ⟨_,?_,setInControl_changed _ node.counts.inControlEdgeCount,rfl,?_,curBound,replaceBound⟩
    · simp only [moveEdge,accepted,if_true]
      cases (moveEntry node.inControlEdges (sizeT cur) (sizeT replace)).getD (sizeT replace) none <;> rfl
    · intro same
      simp [setInControl,countEntries,same]
  | kDirectionOutType =>
    by_cases control : ioIdx = kControlEdgeIndex
    · subst control
      rw [slot_out_control] at curBound replaceBound ⊢
      refine ⟨_,?_,setOutControl_changed _ node.counts.outControlEdgesCount,rfl,?_,curBound,replaceBound⟩
      · simp only [moveEdge,accepted,if_true]
        cases (moveEntry node.outControlEdges (sizeT cur) (sizeT replace)).getD (sizeT replace) none <;> rfl
      · intro same
        simp [setOutControl,countEntries,same]
    · have bound : sizeT ioIdx < node.dataOutNum := inside control
      rw [slot_out_data control] at curBound replaceBound ⊢
      refine ⟨_,?_,setOutData_changed control bound _ node.counts.totalNum (node.perEdges ioIdx),?_,?_,curBound,
        replaceBound⟩
      · simp only [moveEdge,accepted,control,if_false]
        cases (moveEntry (node.outDataVector ioIdx) (sizeT cur) (sizeT replace)).getD (sizeT replace) none <;> rfl
      · have within : sizeT ioIdx < node.counts.perEdgesNum.length := by rwa [node.perEdges_size]
        simp [setOutData,perEdges,within]
      · intro same
        have entry : node.countEntries.perEdgesNum.getD (sizeT ioIdx) 0 = live (node.outDataVector ioIdx) :=
          perEdges_countEntries
        have within : sizeT ioIdx < node.countEntries.perEdgesNum.length := by
          rwa [countEntries,length_map,node.outData_size]
        rw [getD_eq_getElem?_getD,getElem?_eq_getElem within,Option.getD_some] at entry
        rw [countEntries_setOutData bound,same,← entry,set_getElem_self,Nat.add_sub_cancel]

end FastNode

end GraphEngine.FastGraph
