import GraphEngine.Lib.Clique
import GraphEngine.Fusion.Rewrites

/-! The connection matrix under `Update` and `ExpandAndUpdate`. A new node gets a row and a column; but `Update` knows the
nodes of the graph only: it gives nothing to new rows, and its bits are only as wide as the graph. -/
namespace GraphEngine.Fusion

open Relation Lib List LargeBitmap
open Option (map_some getD_some)

variable {Name : Type}

namespace ConnectionMatrix

/-- The bit of column `j` in row `i`. -/
def cell (matrix : ConnectionMatrix Name) (i j : Nat) : Bool := (matrix.bitMaps.getD i (.zero 0)).wordBit j

structure Sound (matrix : ConnectionMatrix Name) : Prop where
  nodup : matrix.names.Nodup
  capacity : matrix.names.length ≤ matrix.bitMaps.length
  sizes : ∀ i < matrix.bitMaps.length, (matrix.bitMaps.getD i (.zero 0)).size = matrix.bitMaps.length
  used : ∀ i j, matrix.cell i j = true → i < matrix.names.length ∧ j < matrix.names.length

section Cells
variable {matrix : ConnectionMatrix Name} {x y name node : Name} {i j : Nat} {fusionNodes : List Name}

theorem Sound.getBit (sound : matrix.Sound) (row : i < matrix.names.length)
    (column : j < matrix.names.length) : (matrix.bitMaps.getD i (.zero 0)).getBit j = matrix.cell i j := by
  have inside := row.trans_le sound.capacity
  rw [getBit_eq,sound.sizes i inside,cell]
  simp [column.trans_le sound.capacity]

variable (maps : Name → LargeBitmap)

theorem wordBit_joined (nodes : List Name) (start : LargeBitmap) (index : Nat) :
    (nodes.foldl (fun bits node => bits.or (maps node)) start).wordBit index =
      (start.wordBit index || (decide (index / kBitsEachValue < alignArraySize start.size) &&
        nodes.any fun node => (maps node).wordBit index)) := by
  induction nodes generalizing start with
  | nil => simp
  | cons node nodes ih =>
    rw [foldl_cons,ih,or_size,wordBit_or,any_cons,Bool.and_or_distrib_left,
      Bool.or_assoc]

theorem joined_size (nodes : List Name) (start : LargeBitmap) :
    (nodes.foldl (fun bits node => bits.or (maps node)) start).size = start.size := by
  induction nodes generalizing start with
  | nil => rfl
  | cons node nodes ih => rw [foldl_cons,ih,or_size]

theorem Sound.unused (sound : matrix.Sound) (free : matrix.names.length ≤ i ∨ matrix.names.length ≤ j) :
    matrix.cell i j = false := by
  rw [Bool.eq_false_iff]
  intro set
  have inside := sound.used i j set
  omega

theorem addNode_length (matrix : ConnectionMatrix Name) (name : Name) : (matrix.addNode name).bitMaps.length =
    if matrix.bitMaps.length ≤ matrix.names.length + 1 then matrix.bitMaps.length + expandStep
    else matrix.bitMaps.length := by
  unfold addNode
  dsimp only
  split
  · rw [length_mapIdx,length_append,length_map,length_replicate]
  · rfl

abbrev resizedRows (matrix : ConnectionMatrix Name) : List LargeBitmap :=
  matrix.bitMaps.map (resizeBits · (matrix.bitMaps.length + expandStep)) ++
    List.replicate expandStep (.zero (matrix.bitMaps.length + expandStep))

theorem Sound.resized (sound : matrix.Sound) {bitmap : LargeBitmap} (row : matrix.resizedRows[i]? = some bitmap) :
    bitmap.size = matrix.bitMaps.length + expandStep ∧
      ∀ j, i < matrix.names.length → bitmap.wordBit j = matrix.cell i j := by
  rw [getElem?_append,length_map] at row
  split_ifs at row with inside
  · rw [getElem?_map,getElem?_eq_getElem inside,map_some,Option.some.injEq] at row
    have old : matrix.bitMaps.getD i (.zero 0) = matrix.bitMaps[i] := by
      rw [getD_eq_getElem?_getD,getElem?_eq_getElem inside,getD_some]
    have size := sound.sizes i inside
    rw [old] at size
    have larger : matrix.bitMaps[i].size ≤ matrix.bitMaps.length + expandStep := by
      rw [size]
      exact Nat.le_add_right _ _
    rw [← row]
    refine ⟨resizeBits_size larger,fun j _ => ?_⟩
    rw [wordBit_resizeBits larger,cell,old]
    intro index set
    rw [size]
    apply (sound.used i index _).2.trans_le sound.capacity
    rw [cell,old]
    exact set
  · rw [eq_of_mem_replicate (mem_of_getElem? row)]
    exact ⟨rfl,fun j known => absurd (known.trans_le sound.capacity) inside⟩

theorem addNode_row (sound : matrix.Sound) (name : Name) : (∀ i < (matrix.addNode name).bitMaps.length,
      ((matrix.addNode name).bitMaps.getD i (.zero 0)).size = (matrix.addNode name).bitMaps.length) ∧
    ∀ i j, (matrix.addNode name).cell i j = matrix.cell i j := by
  by_cases grow : matrix.bitMaps.length ≤ matrix.names.length + 1
  · have rows : (matrix.addNode name).bitMaps = matrix.resizedRows.mapIdx fun i bitmap =>
        if matrix.names.length ≤ i then bitmap.setValues 0 else bitmap := if_pos grow
    have length : (matrix.addNode name).bitMaps.length = matrix.bitMaps.length + expandStep :=
      (addNode_length matrix name).trans (if_pos grow)
    have entry : ∀ i < (matrix.addNode name).bitMaps.length, ((matrix.addNode name).bitMaps.getD i (.zero 0)).size =
        (matrix.addNode name).bitMaps.length ∧ ∀ j, (matrix.addNode name).cell i j = matrix.cell i j := by
      intro i inside
      rw [length]
      rw [rows,length_mapIdx] at inside
      have row := getElem?_eq_getElem inside
      obtain ⟨size,bits⟩ := sound.resized row
      simp only [cell,rows,getD_eq_getElem?_getD,getElem?_mapIdx,row,map_some,getD_some]
      split_ifs with free
      · refine ⟨by rw [setValues_size,size],fun j => ?_⟩
        rw [wordBit_setValues_zero]
        exact (sound.unused (.inl free)).symm
      · exact ⟨size,fun j => bits j (Nat.not_le.mp free)⟩
    refine ⟨fun i inside => (entry i inside).1,fun i j => ?_⟩
    by_cases inside : i < (matrix.addNode name).bitMaps.length
    · exact (entry i inside).2 j
    · have capacity := sound.capacity
      rw [cell,getD_eq_default _ _ (not_lt.mp inside),wordBit_zero]
      exact (sound.unused (.inl (by omega))).symm
  · have same : (matrix.addNode name).bitMaps = matrix.bitMaps := if_neg grow
    unfold cell
    rw [same]
    exact ⟨sound.sizes,fun _ _ => rfl⟩

theorem Sound.addNode (sound : matrix.Sound) (fresh : name ∉ matrix.names) : (matrix.addNode name).Sound := by
  obtain ⟨sizes,cells⟩ := addNode_row sound name
  have names : (matrix.addNode name).names = matrix.names ++ [name] := rfl
  have capacity := sound.capacity
  refine ⟨?_,?_,sizes,?_⟩
  · rw [names,nodup_append]
    refine ⟨sound.nodup,nodup_singleton _,?_⟩
    intro known old new isNew same
    rw [mem_singleton.mp isNew] at same
    exact fresh (same ▸ old)
  · rw [names,addNode_length,length_append,length_singleton]
    unfold expandStep
    split <;> omega
  · intro i j set
    rw [cells] at set
    have inside := sound.used i j set
    rw [names,length_append,length_singleton]
    omega

theorem Sound.room (sound : matrix.Sound) (fresh : name ∉ matrix.names) :
    matrix.names.length < (matrix.addNode name).bitMaps.length := by
  have capacity := (sound.addNode fresh).capacity
  have names : (matrix.addNode name).names.length = matrix.names.length + 1 := length_append
  omega

variable [DecidableEq Name]

theorem getIndex_lt (known : x ∈ matrix.names) : matrix.getIndex x < matrix.names.length := by
  rw [getIndex,if_pos known]
  exact idxOf_lt_length_of_mem known

theorem Sound.isConnected (sound : matrix.Sound) (knownX : x ∈ matrix.names) (knownY : y ∈ matrix.names) :
    matrix.isConnected x y = matrix.cell (matrix.getIndex y) (matrix.getIndex x) :=
  sound.getBit (getIndex_lt knownY) (getIndex_lt knownX)

theorem getIndex_addNode (old : x ∈ matrix.names) : (matrix.addNode name).getIndex x = matrix.getIndex x := by
  have names : (matrix.addNode name).names = matrix.names ++ [name] := rfl
  rw [getIndex,getIndex,names,if_pos (mem_append_left _ old),if_pos old,idxOf_append_of_mem old]

def newRow (matrix : ConnectionMatrix Name) (fusionNodes : List Name) (name : Name) : LargeBitmap :=
  fusionNodes.foldl (fun bits node => bits.or ((matrix.addNode name).getBitMap node))
    (((matrix.addNode name).bitMaps.getD matrix.names.length (.zero 0)).setBit matrix.names.length)

theorem expandAndUpdate_row : (matrix.expandAndUpdate fusionNodes name).bitMaps[i]? =
      ((matrix.addNode name).bitMaps.set matrix.names.length (matrix.newRow fusionNodes name))[i]?.map fun nodeMap =>
        if i < (matrix.addNode name).names.length ∧
            (fusionNodes.any fun fused => nodeMap.getBit ((matrix.addNode name).getIndex fused)) then
          nodeMap.or (matrix.newRow fusionNodes name)
        else nodeMap :=
  getElem?_mapIdx ..

theorem expandAndUpdate_length :
    (matrix.expandAndUpdate fusionNodes name).bitMaps.length = (matrix.addNode name).bitMaps.length := by
  unfold expandAndUpdate
  rw [length_mapIdx,length_set]

section Growing

variable (sound : matrix.Sound) (fresh : name ∉ matrix.names)
include sound fresh

theorem newRow_size (fusionNodes : List Name) :
    (matrix.newRow fusionNodes name).size = (matrix.addNode name).bitMaps.length := by
  rw [newRow,joined_size,setBit_size,(addNode_row sound name).1 _ (sound.room fresh)]

variable (known : ∀ node ∈ fusionNodes, node ∈ matrix.names)
include known

theorem newRow_wordBit (j : Nat) : (matrix.newRow fusionNodes name).wordBit j = true ↔
      j = matrix.names.length ∨ ∃ s ∈ fusionNodes, matrix.cell (matrix.getIndex s) j = true := by
  obtain ⟨sizes,cells⟩ := addNode_row sound name
  have room := sound.room fresh
  have blank : ((matrix.addNode name).bitMaps.getD matrix.names.length (.zero 0)).wordBit j = false :=
    (cells matrix.names.length j).trans (sound.unused (.inl le_rfl))
  have rows : ∀ s ∈ fusionNodes, ((matrix.addNode name).getBitMap s).wordBit j = matrix.cell (matrix.getIndex s) j := by
    intro s fused
    rw [← cells,← getIndex_addNode (known s fused)]
    rfl
  rw [newRow,wordBit_joined,wordBit_setBit (by rw [sizes _ room]; exact room),blank,
    setBit_size,sizes _ room]
  simp only [Bool.false_or,Bool.or_eq_true,decide_eq_true_eq,Bool.and_eq_true,any_eq_true]
  apply or_congr eq_comm
  constructor
  · rintro ⟨-,s,fused,set⟩
    exact ⟨s,fused,by rw [← rows s fused,set]⟩
  · rintro ⟨s,fused,set⟩
    have inside := (sound.used _ _ set).2
    refine ⟨?_,s,fused,by rw [rows s fused,set]⟩
    unfold alignArraySize kBitsEachValue
    omega

theorem expandAndUpdate_cell (i j : Nat) : (matrix.expandAndUpdate fusionNodes name).cell i j = true ↔ matrix.cell i j = true ∨
      (i = matrix.names.length ∨ ∃ t ∈ fusionNodes, matrix.cell i (matrix.getIndex t) = true) ∧
      (j = matrix.names.length ∨ ∃ s ∈ fusionNodes, matrix.cell (matrix.getIndex s) j = true) := by
  obtain ⟨sizes,cells⟩ := addNode_row sound name
  have sound' := sound.addNode fresh
  have room := sound.room fresh
  have names : (matrix.addNode name).names.length = matrix.names.length + 1 := length_append
  have joined := newRow_wordBit sound fresh known
  have newSize := newRow_size sound fresh fusionNodes
  rw [cell,getD_eq_getElem?_getD,expandAndUpdate_row]
  rcases lt_trichotomy i matrix.names.length with old | isNew | free
  · have inside : i < (matrix.addNode name).bitMaps.length := old.trans room
    have here : (matrix.addNode name).bitMaps.getD i (.zero 0) = (matrix.addNode name).bitMaps[i] := by
      rw [getD_eq_getElem?_getD,getElem?_eq_getElem inside,getD_some]
    have bits : (matrix.addNode name).bitMaps[i].wordBit j = matrix.cell i j := by rw [← cells,cell,here]
    have hit : (fusionNodes.any fun fused => (matrix.addNode name).bitMaps[i].getBit
        ((matrix.addNode name).getIndex fused)) = true ↔
        ∃ t ∈ fusionNodes, matrix.cell i (matrix.getIndex t) = true := by
      rw [any_eq_true]
      apply exists_congr
      intro t
      apply and_congr_right
      intro fused
      rw [getIndex_addNode (known t fused),← here,sound'.getBit (by omega)
        (by have := getIndex_lt (known t fused); omega),cells]
    rw [getElem?_set_ne (Nat.ne_of_gt old),getElem?_eq_getElem inside,map_some,getD_some]
    split_ifs with both
    · rw [hit] at both
      rw [wordBit_or_of_size (by rw [← here,sizes i inside,newSize]),Bool.or_eq_true,bits,joined]
      simp [both.2]
    · have none_ : ¬∃ t ∈ fusionNodes, matrix.cell i (matrix.getIndex t) = true :=
        fun some_ => both ⟨by omega,hit.mpr some_⟩
      rw [bits]
      simp [none_,Nat.ne_of_lt old]
  · have blank : matrix.cell i j = false := sound.unused (.inl (le_of_eq isNew.symm))
    rw [isNew,getElem?_set_self room,map_some,getD_some,← isNew,blank]
    have same : ∀ condition : Prop, [Decidable condition] → (if condition then
        (matrix.newRow fusionNodes name).or (matrix.newRow fusionNodes name)
        else matrix.newRow fusionNodes name).wordBit j = (matrix.newRow fusionNodes name).wordBit j := by
      intro condition _
      split
      · rw [wordBit_or_of_size rfl,Bool.or_self]
      · rfl
    rw [same,joined]
    simp [isNew]
  · have missed : ¬∃ t ∈ fusionNodes, matrix.cell i (matrix.getIndex t) = true := by
      rintro ⟨t,-,set⟩
      exact absurd (sound.used _ _ set).1 (lt_asymm free)
    have blank : matrix.cell i j = false := sound.unused (.inl free.le)
    have old : ((matrix.addNode name).bitMaps[i]?.getD (.zero 0)).wordBit j = false := by
      rw [← getD_eq_getElem?_getD]
      exact (cells i j).trans blank
    rw [getElem?_set_ne (Nat.ne_of_lt free),blank]
    cases there : (matrix.addNode name).bitMaps[i]? with
    | none => simp [missed,Nat.ne_of_gt free,wordBit_zero]
    | some nodeMap =>
      rw [there] at old
      rw [map_some,getD_some,if_neg (by omega)]
      simpa [missed,Nat.ne_of_gt free] using old

theorem Sound.expandAndUpdate : (matrix.expandAndUpdate fusionNodes name).Sound := by
  have sound' := sound.addNode fresh
  have names : (matrix.expandAndUpdate fusionNodes name).names = (matrix.addNode name).names := rfl
  have count : (matrix.addNode name).names.length = matrix.names.length + 1 := length_append
  have newSize := newRow_size sound fresh fusionNodes
  refine ⟨sound'.nodup,?_,?_,?_⟩
  · rw [names,expandAndUpdate_length]
    exact sound'.capacity
  · intro i inside
    rw [expandAndUpdate_length] at inside ⊢
    have size : ∀ nodeMap, ((matrix.addNode name).bitMaps.set matrix.names.length
        (matrix.newRow fusionNodes name))[i]? = some nodeMap → nodeMap.size = (matrix.addNode name).bitMaps.length := by
      intro nodeMap row
      rw [getElem?_set] at row
      split at row
      · split at row
        · rw [← Option.some.inj row,newSize]
        · cases row
      · have old := sound'.sizes i inside
        rw [getD_eq_getElem?_getD,row] at old
        exact old
    rw [getD_eq_getElem?_getD,expandAndUpdate_row]
    cases row : ((matrix.addNode name).bitMaps.set matrix.names.length (matrix.newRow fusionNodes name))[i]? with
    | none =>
      have beyond := List.getElem?_eq_none_iff.mp row
      rw [length_set] at beyond
      omega
    | some nodeMap =>
      rw [map_some,getD_some]
      split
      · rw [or_size,size nodeMap row]
      · exact size nodeMap row
  · intro i j set
    rw [names,count]
    rcases (expandAndUpdate_cell sound fresh known i j).mp set with old | ⟨row,column⟩
    · have inside := sound.used i j old
      omega
    · constructor
      · rcases row with isNew | ⟨t,-,old⟩
        · omega
        · have inside := sound.used _ _ old
          omega
      · rcases column with isNew | ⟨t,-,old⟩
        · omega
        · have inside := sound.used _ _ old
          omega

end Growing

/-- The loop body of `Update`. -/
theorem spreadNode_other (fusionNodes : List Name) (newBitVector : LargeBitmap) (other : matrix.getIndex node ≠ i) :
    (spreadNode fusionNodes newBitVector matrix node).bitMaps[i]? = matrix.bitMaps[i]? := by
  unfold spreadNode
  split
  · exact getElem?_set_ne other
  · rfl

theorem getBitMap_congr {matrix' : ConnectionMatrix Name} (names : matrix'.names = matrix.names)
    (row : matrix'.bitMaps[matrix.getIndex x]? = matrix.bitMaps[matrix.getIndex x]?) :
    matrix'.getBitMap x = matrix.getBitMap x := by
  have index : matrix'.getIndex x = matrix.getIndex x := by rw [getIndex,getIndex,names]
  rw [getBitMap,getBitMap,index,getD_eq_getElem?_getD,getD_eq_getElem?_getD,row]

theorem spread_row (fusionNodes : List Name) (newBitVector : LargeBitmap) (nodes : List Name) (nodup : nodes.Nodup) :
    ∀ matrix : ConnectionMatrix Name, (∀ node ∈ nodes, node ∈ matrix.names) → matrix.names.length ≤ matrix.bitMaps.length →
      (spread fusionNodes newBitVector nodes matrix).bitMaps.length = matrix.bitMaps.length ∧
      (∀ node ∈ nodes, (spread fusionNodes newBitVector nodes matrix).getBitMap node =
        if fusionNodes.any fun fused => (matrix.getBitMap node).getBit (matrix.getIndex fused) then
          (matrix.getBitMap node).or newBitVector
        else matrix.getBitMap node) ∧
      ∀ i, (∀ node ∈ nodes, matrix.getIndex node ≠ i) →
        (spread fusionNodes newBitVector nodes matrix).bitMaps[i]? = matrix.bitMaps[i]? := by
  induction nodes with
  | nil => exact fun matrix _ _ => ⟨rfl,fun node none_ => absurd none_ not_mem_nil,fun _ _ => rfl⟩
  | cons node nodes ih =>
    intro matrix known capacity
    obtain ⟨unlisted,nodup⟩ := nodup_cons.mp nodup
    obtain ⟨next,isNext⟩ : ∃ next, next = spreadNode fusionNodes newBitVector matrix node := ⟨_,rfl⟩
    have ⟨names,length⟩ : next.names = matrix.names ∧ next.bitMaps.length = matrix.bitMaps.length := by
      rw [isNext,spreadNode]
      split
      · exact ⟨rfl,length_set⟩
      · exact ⟨rfl,rfl⟩
    have index : ∀ z, next.getIndex z = matrix.getIndex z := by
      intro z
      rw [getIndex,getIndex,names]
    have apart : ∀ other ∈ nodes, matrix.getIndex node ≠ matrix.getIndex other := by
      intro other listed same
      have equal := getIndex_inj (known node mem_cons_self) (known other (mem_cons_of_mem _ listed)) same
      exact unlisted (equal ▸ listed)
    obtain ⟨lengths,rows,others⟩ := ih nodup next
      (fun other listed => by rw [names]; exact known other (mem_cons_of_mem _ listed))
      (by rw [names,length]; exact capacity)
    have unfolded : spread fusionNodes newBitVector (node :: nodes) matrix = spread fusionNodes newBitVector nodes next := by
      rw [isNext]
      rfl
    rw [unfolded]
    refine ⟨lengths.trans length,?_,?_⟩
    · intro other listed
      rcases mem_cons.mp listed with rfl | later
      · have kept := others (matrix.getIndex other) fun z inRest => by rw [index]; exact (apart z inRest).symm
        rw [← index] at kept
        rw [getBitMap_congr (spread_grows fusionNodes newBitVector nodes next).1 kept,isNext,spreadNode]
        split
        · exact getBitMap_setBitMap_self ((getIndex_lt (known other mem_cons_self)).trans_le capacity)
        · rfl
      · have row := getBitMap_congr names (isNext ▸ spreadNode_other _ _ (apart other later))
        rw [rows other later,row]
        simp only [index]
    · intro i different
      rw [others i fun z inRest => by rw [index]; exact different z (mem_cons_of_mem _ inRest),isNext,
        spreadNode_other _ _ (different node mem_cons_self)]

variable {graph : Graph Name} {more : List Name} (sound : matrix.Sound) (front : matrix.names = graph.nodes ++ more)
include sound front

theorem update_row (fusionNodes : List Name) :
    let newBitVector := fusionNodes.foldl (fun bits node => bits.or (matrix.getBitMap node)) (.zero graph.nodes.length)
    (matrix.update graph fusionNodes).bitMaps.length = matrix.bitMaps.length ∧
    ∀ i, (matrix.update graph fusionNodes).bitMaps.getD i (.zero 0) =
      if i < graph.nodes.length ∧
          fusionNodes.any fun fused => (matrix.bitMaps.getD i (.zero 0)).getBit (matrix.getIndex fused) then
        (matrix.bitMaps.getD i (.zero 0)).or newBitVector
      else matrix.bitMaps.getD i (.zero 0) := by
  intro newBitVector
  have nodup : graph.nodes.Nodup := by
    have all := sound.nodup
    rw [front] at all
    exact (nodup_append.mp all).1
  have known : ∀ node ∈ graph.nodes, node ∈ matrix.names := by
    intro node listed
    rw [front]
    exact mem_append_left _ listed
  obtain ⟨length,rows,others⟩ := spread_row fusionNodes newBitVector graph.nodes nodup matrix known sound.capacity
  refine ⟨length,fun i => ?_⟩
  by_cases listed : i < graph.nodes.length
  · have index : matrix.getIndex graph.nodes[i] = i := by
      rw [getIndex,if_pos (known _ (getElem_mem listed)),front,
        idxOf_append_of_mem (getElem_mem listed),nodup.idxOf_getElem]
    have names := (spread_grows fusionNodes newBitVector graph.nodes matrix).1
    have row := rows graph.nodes[i] (getElem_mem listed)
    have index' : (spread fusionNodes newBitVector graph.nodes matrix).getIndex graph.nodes[i] = i := by
      rw [getIndex,names]
      exact index
    simp only [getBitMap,index,index'] at row
    simp only [listed,true_and]
    exact row
  · rw [if_neg fun both => listed both.1,getD_eq_getElem?_getD,getD_eq_getElem?_getD]
    congr 1
    apply others
    intro node isNode same
    apply listed
    rw [← same,getIndex,if_pos (known node isNode),front,idxOf_append_of_mem isNode]
    exact idxOf_lt_length_of_mem isNode

variable (known : ∀ node ∈ fusionNodes, node ∈ matrix.names)
include known

theorem update_cell (i j : Nat) : (matrix.update graph fusionNodes).cell i j = true ↔ matrix.cell i j = true ∨
      (i < graph.nodes.length ∧ ∃ t ∈ fusionNodes, matrix.cell i (matrix.getIndex t) = true) ∧
      (j / kBitsEachValue < alignArraySize graph.nodes.length ∧
        ∃ s ∈ fusionNodes, matrix.cell (matrix.getIndex s) j = true) := by
  have count : graph.nodes.length ≤ matrix.names.length := by
    rw [front,length_append]
    omega
  have hit : i < graph.nodes.length → ((fusionNodes.any fun fused =>
      (matrix.bitMaps.getD i (.zero 0)).getBit (matrix.getIndex fused)) = true ↔
        ∃ t ∈ fusionNodes, matrix.cell i (matrix.getIndex t) = true) := by
    intro listed
    rw [any_eq_true]
    apply exists_congr
    intro t
    apply and_congr_right
    intro fused
    rw [sound.getBit (by omega) (getIndex_lt (known t fused))]
  rw [cell,(update_row sound front fusionNodes).2 i]
  split_ifs with both
  · have inside : i < matrix.bitMaps.length := (both.1.trans_le count).trans_le sound.capacity
    rw [hit both.1] at both
    rw [wordBit_or,wordBit_joined,wordBit_zero,sound.sizes i inside]
    simp only [Bool.or_eq_true,Bool.and_eq_true,decide_eq_true_eq,Bool.false_or,zero_size,
      any_eq_true]
    apply or_congr Iff.rfl
    constructor
    · rintro ⟨-,word,column⟩
      exact ⟨both,of_decide_eq_true word,column⟩
    · rintro ⟨-,word,s,fused,set⟩
      refine ⟨?_,decide_eq_true word,s,fused,set⟩
      have column := (sound.used _ _ set).2
      have capacity := sound.capacity
      unfold alignArraySize kBitsEachValue
      omega
  · have none_ : ¬(i < graph.nodes.length ∧ ∃ t ∈ fusionNodes, matrix.cell i (matrix.getIndex t) = true) := by
      rintro ⟨listed,some_⟩
      exact both ⟨listed,(hit listed).mpr some_⟩
    simp only [none_,false_and,or_false]
    rfl

theorem Sound.update : (matrix.update graph fusionNodes).Sound := by
  obtain ⟨length,rows⟩ := update_row sound front fusionNodes
  have names : (matrix.update graph fusionNodes).names = matrix.names := (spread_grows fusionNodes _ graph.nodes matrix).1
  refine ⟨by rw [names]; exact sound.nodup,by rw [names,length]; exact sound.capacity,?_,?_⟩
  · intro i inside
    rw [length] at inside ⊢
    rw [rows]
    split
    · rw [or_size,sound.sizes i inside]
    · exact sound.sizes i inside
  · intro i j set
    rw [names]
    rcases (update_cell sound front known i j).mp set with old | ⟨⟨-,t,-,row⟩,-,s,-,column⟩
    · exact sound.used i j old
    · exact ⟨(sound.used _ _ row).1,(sound.used _ _ column).2⟩

end Cells
end ConnectionMatrix
end GraphEngine.Fusion
