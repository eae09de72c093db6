import GraphEngine.FastGraph.FastNodeSlots

/-! Edges of a fast graph. `AddEdge` records an edge at both nodes and takes the first record back if the second fails;
removed edges are used again. The two edge lists are quick lists. -/

namespace GraphEngine.FastGraph

open Function List
open Int32 (ofNat)

variable {Node Edge : Type} [DecidableEq Node] [DecidableEq Edge]

structure FastGraphImpl (Node Edge : Type) where
  nodes : Node → FastNode Edge
  objects : Edge → FastEdge Node
  edges : List Edge
  freeEdges : List Edge

namespace FastGraphImpl

variable (graph : FastGraphImpl Node Edge)

def ioIndexesDisagree (srcIndex dstIndex : Int32) : Bool :=
  (srcIndex = kControlEdgeIndex && dstIndex ≠ kControlEdgeIndex) ||
    (srcIndex ≠ kControlEdgeIndex && dstIndex = kControlEdgeIndex)

/-- A free edge, or what `new (std::nothrow)` gives. -/
def takeEdge (allocated : Option Edge) : Option (Edge × List Edge) :=
  match graph.freeEdges with
  | [] => allocated.map (·,[])
  | edge :: rest => some (edge,rest)

def assignEnds (objects : Edge → FastEdge Node) (edge : Edge) (src : Node) (srcIndex : Int32) (dst : Node)
    (dstIndex : Int32) : Edge → FastEdge Node :=
  Function.update objects edge
    { objects edge with src := some src,dst := some dst,srcOutput := srcIndex,dstInput := dstIndex }

/-- `AddEdge` from the first record on. -/
def recordEnds (edge : Edge) (freeEdges : List Edge) (objects : Edge → FastEdge Node)
    (src dst : Node) : Option Edge × FastGraphImpl Node Edge :=
  let (status,srcNode,objects) := (graph.nodes src).recordEdge objects edge .kDirectionOutType
  let nodes := Function.update graph.nodes src srcNode
  if status ≠ .success then
    (none,{ graph with nodes := nodes,objects := objects,freeEdges := freeEdges ++ [edge] })
  else
    let (status,dstNode,objects) := (nodes dst).recordEdge objects edge .kDirectionInType
    let nodes := Function.update nodes dst dstNode
    if status ≠ .success then
      let (_,srcNode) := (nodes src).eraseEdge objects edge .kDirectionOutType
      let nodes := Function.update nodes src srcNode
      (none,{ graph with nodes := nodes,objects := objects,freeEdges := freeEdges ++ [edge] })
    else (some edge,{ nodes := nodes,objects := objects,edges := graph.edges ++ [edge],freeEdges := freeEdges })

def addEdge (allocated : Option Edge) (src : Node) (srcIndex : Int32) (dst : Node)
    (dstIndex : Int32) : Option Edge × FastGraphImpl Node Edge :=
  if ioIndexesDisagree srcIndex dstIndex then (none,graph)
  else
    match graph.takeEdge allocated with
    | none => (none,graph)
    | some (edge,freeEdges) =>
      graph.recordEnds edge freeEdges (assignEnds graph.objects edge src srcIndex dst dstIndex) src dst

/-- One of the two blocks of `RemoveEdge` that take an edge away from a node. -/
def detachSrc (edge : Edge) : FastGraphImpl Node Edge :=
  match (graph.objects edge).src with
  | none => graph
  | some src => { graph with
      nodes := Function.update graph.nodes src ((graph.nodes src).eraseEdge graph.objects edge .kDirectionOutType).2
      objects := Function.update graph.objects edge { graph.objects edge with src := none } }

def detachDst (edge : Edge) : FastGraphImpl Node Edge :=
  match (graph.objects edge).dst with
  | none => graph
  | some dst => { graph with
      nodes := Function.update graph.nodes dst ((graph.nodes dst).eraseEdge graph.objects edge .kDirectionInType).2
      objects := Function.update graph.objects edge { graph.objects edge with dst := none } }

def removeEdge (edge : Edge) : GraphStatus × FastGraphImpl Node Edge :=
  if edge ∉ graph.edges then (if edge ∈ graph.freeEdges then .success else .notChanged,graph)
  else
    let graph := (graph.detachSrc edge).detachDst edge
    (.success,{ graph with edges := graph.edges.erase edge,freeEdges := graph.freeEdges ++ [edge] })

/-- `MoveEdge` of a node of the graph. -/
def moveEdge (node : Node) (type : DirectionType)
    (ioIdx curArrayIndex replaceArrayIndex : Int32) : GraphStatus × FastGraphImpl Node Edge :=
  let (status,moved,objects) := (graph.nodes node).moveEdge graph.objects type ioIdx curArrayIndex replaceArrayIndex
  (status,{ graph with nodes := Function.update graph.nodes node moved,objects := objects })

end FastGraphImpl

inductive EdgeCall (Node Edge : Type) where
  | addEdge (allocated : Option Edge) (src : Node) (srcIndex : Int32) (dst : Node) (dstIndex : Int32)
  | removeEdge (edge : Edge)
  | moveEdge (node : Node) (type : DirectionType) (ioIdx curArrayIndex replaceArrayIndex : Int32)

def EdgeCall.exec (graph : FastGraphImpl Node Edge) : EdgeCall Node Edge → FastGraphImpl Node Edge
  | .addEdge allocated src srcIndex dst dstIndex => (graph.addEdge allocated src srcIndex dst dstIndex).2
  | .removeEdge edge => (graph.removeEdge edge).2
  | .moveEdge node type ioIdx curArrayIndex replaceArrayIndex =>
    (graph.moveEdge node type ioIdx curArrayIndex replaceArrayIndex).2

namespace FastGraphImpl
variable (graph : FastGraphImpl Node Edge)

def Recorded (node : Node) (type : DirectionType) (index : Int32) (place : Nat)
    (edge : Edge) : Prop :=
  (graph.nodes node).Holds type index place edge

/-- The edges of the list have their two records at the stored positions and the counters are right. -/
structure Sound : Prop where
  recorded : ∀ edge ∈ graph.edges, ∀ type, ∃ node, (graph.objects edge).endOf type = some node ∧ ∀ place,
    graph.Recorded node type ((graph.objects edge).index type) place edge ↔
      place = sizeT ((graph.objects edge).position type)
  counted : ∀ node, (graph.nodes node).counts = (graph.nodes node).countEntries

structure SameEdges (graph after : FastGraphImpl Node Edge) : Prop where
  recorded : ∀ node type index place edge,
    after.Recorded node type index place edge ↔ graph.Recorded node type index place edge
  counts : ∀ node, (after.nodes node).counts = (graph.nodes node).counts
  edges : after.edges = graph.edges

structure Consistent : Prop where
  recorded : ∀ node type index place edge, graph.Recorded node type index place edge ↔ edge ∈ graph.edges ∧
    (graph.objects edge).endOf type = some node ∧ (graph.objects edge).index type = index ∧
    sizeT ((graph.objects edge).position type) = place
  ends : ∀ edge ∈ graph.edges, ∀ type, ((graph.objects edge).endOf type).isSome
  usable : ∀ node type index place edge, graph.Recorded node type index place edge →
    (graph.nodes node).Usable type index
  counted : ∀ node, (graph.nodes node).counts = (graph.nodes node).countEntries
  distinct : (graph.edges ++ graph.freeEdges).Nodup

def RoomFor (src : Node) (srcIndex : Int32) (dst : Node) (dstIndex : Int32) : Prop :=
  (graph.nodes src).Usable .kDirectionOutType srcIndex →
    Storable ((graph.nodes src).slot .kDirectionOutType srcIndex).length ∧
    (dstIndex = kControlEdgeIndex → Storable (graph.nodes dst).inControlEdges.length)

end FastGraphImpl

def EdgeCall.Keeps (graph : FastGraphImpl Node Edge) : EdgeCall Node Edge → Prop
  | .addEdge allocated src srcIndex dst dstIndex =>
    FastGraphImpl.ioIndexesDisagree srcIndex dstIndex = false → graph.takeEdge allocated ≠ none →
      graph.RoomFor src srcIndex dst dstIndex
  | .removeEdge _ => True
  | .moveEdge node type ioIdx curArrayIndex replaceArrayIndex =>
    (graph.nodes node).checkAllInputParamter type ioIdx curArrayIndex replaceArrayIndex = .success →
    ¬(type = .kDirectionInType ∧ ioIdx ≠ kControlEdgeIndex) →
      ((graph.nodes node).slot type ioIdx)[sizeT replaceArrayIndex]? = some none

namespace FastGraphImpl

section Nodes

open FastNode

variable {nodes : Node → FastNode Edge} {node : Node} {changed : FastNode Edge} {type : DirectionType} {index : Int32}
  {place : Nat} {edge : Edge}

omit [DecidableEq Edge]

theorem holds_of_adds (adds : Adds (nodes node) changed type index place edge) (n : Node) (t : DirectionType) (i : Int32)
    (p : Nat) (e : Edge) : (update nodes node changed n).Holds t i p e ↔
      (nodes n).Holds t i p e ∨ (n = node ∧ t = type ∧ i = index ∧ p = place ∧ e = edge) := by
  by_cases same : n = node
  · subst same
    simp [adds.holds]
  · simp [same]

theorem holds_of_drops (drops : Drops (nodes node) changed type index place) (n : Node) (t : DirectionType) (i : Int32)
    (p : Nat) (e : Edge) : (update nodes node changed n).Holds t i p e ↔
      (nodes n).Holds t i p e ∧ ¬(n = node ∧ t = type ∧ i = index ∧ p = place) := by
  by_cases same : n = node
  · subst same
    simp [drops.holds]
  · simp [same]

theorem usable_update (usable : ∀ t i, changed.Usable t i ↔ (nodes node).Usable t i) (n : Node) (t : DirectionType)
    (i : Int32) : (update nodes node changed n).Usable t i ↔ (nodes n).Usable t i := by
  by_cases same : n = node
  · subst same
    simp [usable]
  · rw [update_of_ne same]

theorem counted_update (counted : ∀ n, (nodes n).counts = (nodes n).countEntries)
    (new : (nodes node).counts = (nodes node).countEntries → changed.counts = changed.countEntries) (n : Node) :
    (update nodes node changed n).counts = (update nodes node changed n).countEntries := by
  by_cases same : n = node
  · subst same
    simpa using new (counted n)
  · rw [update_of_ne same]
    exact counted n

end Nodes

variable {graph after : FastGraphImpl Node Edge} {edge : Edge} {freeEdges : List Edge}

omit [DecidableEq Node] [DecidableEq Edge] in
theorem Consistent.sound (consistent : graph.Consistent) : graph.Sound := by
  refine ⟨?_,consistent.counted⟩
  intro edge member type
  obtain ⟨node,found⟩ := Option.isSome_iff_exists.mp (consistent.ends edge member type)
  refine ⟨node,found,?_⟩
  intro place
  rw [consistent.recorded]
  exact ⟨fun h => h.2.2.2.symm,fun h => ⟨member,found,rfl,h.symm⟩⟩

omit [DecidableEq Node] [DecidableEq Edge] in
theorem Consistent.of_same (consistent : graph.Consistent) (same : SameEdges graph after)
    (objects : ∀ e ∈ graph.edges, after.objects e = graph.objects e)
    (usable : ∀ node t i, (after.nodes node).Usable t i ↔ (graph.nodes node).Usable t i)
    (counted : ∀ node, (after.nodes node).counts = (after.nodes node).countEntries)
    (distinct : (after.edges ++ after.freeEdges).Nodup) : after.Consistent := by
  refine ⟨?_,?_,?_,counted,distinct⟩
  · intro node type index place edge
    rw [same.recorded,consistent.recorded,same.edges]
    exact and_congr_right fun member => by rw [objects edge member]
  · intro edge member
    rw [same.edges] at member
    rw [objects edge member]
    exact consistent.ends edge member
  · intro node type index place edge recorded
    rw [same.recorded] at recorded
    rw [usable]
    exact consistent.usable node type index place edge recorded

def storePositions (objects : Edge → FastEdge Node) (edge : Edge) (out inn : Int32) : Edge → FastEdge Node :=
  setInIndex (setOutIndex objects edge out) edge inn

omit [DecidableEq Node] in
theorem storePositions_other {objects : Edge → FastEdge Node} {out inn : Int32} {e : Edge} (other : e ≠ edge) :
    storePositions objects edge out inn e = objects e := by
  simp [storePositions,setInIndex,setOutIndex,other]

omit [DecidableEq Node] in
theorem storePositions_self {objects : Edge → FastEdge Node} {out inn : Int32} :
    storePositions objects edge out inn edge = { objects edge with outEdgeIndex := out,inEdgeIndex := inn } := by
  simp [storePositions,setInIndex,setOutIndex]

variable {objects : Edge → FastEdge Node} {src dst : Node} {srcIndex dstIndex : Int32}

section
variable (graph : FastGraphImpl Node Edge) (edge : Edge) (freeEdges : List Edge) (objects : Edge → FastEdge Node)

def withRecords (src dst : Node) (srcNode dstNode : FastNode Edge) (place place' : Nat) : FastGraphImpl Node Edge where
  nodes := Function.update (Function.update graph.nodes src srcNode) dst dstNode
  objects := storePositions objects edge (Int32.ofNat place) (Int32.ofNat place')
  edges := graph.edges ++ [edge]
  freeEdges := freeEdges

def takenBack (src : Node) (srcNode : FastNode Edge) (place : Nat) : FastGraphImpl Node Edge where
  nodes := Function.update (Function.update graph.nodes src srcNode) src
    (srcNode.eraseEdge (storePositions objects edge (Int32.ofNat place) 0) edge .kDirectionOutType).2
  objects := storePositions objects edge (Int32.ofNat place) 0
  edges := graph.edges
  freeEdges := freeEdges ++ [edge]

end

theorem recordEnds_cases {result : Option Edge × FastGraphImpl Node Edge}
    (exec : graph.recordEnds edge freeEdges objects src dst = result)
    (out : (objects edge).srcOutput = srcIndex) (inn : (objects edge).dstInput = dstIndex) :
    (¬(graph.nodes src).Usable .kDirectionOutType srcIndex ∧ ∃ position,
      result = (none,{ graph with objects := setOutIndex objects edge position,freeEdges := freeEdges ++ [edge] })) ∨
    ((graph.nodes src).Usable .kDirectionOutType srcIndex ∧ ∃ srcNode place,
      place = ((graph.nodes src).slot .kDirectionOutType srcIndex).length ∧
      FastNode.Adds (graph.nodes src) srcNode .kDirectionOutType srcIndex place edge ∧ ((∃ dstNode place',
        FastNode.Adds (update graph.nodes src srcNode dst) dstNode .kDirectionInType dstIndex place' edge ∧
        (update graph.nodes src srcNode dst).Usable .kDirectionInType dstIndex ∧
        place' = (if dstIndex = kControlEdgeIndex then (graph.nodes dst).inControlEdges.length else 0) ∧
        result = (some edge,graph.withRecords edge freeEdges objects src dst srcNode dstNode place place')) ∨
      (dstIndex ≠ kControlEdgeIndex ∧ result = (none,graph.takenBack edge freeEdges objects src srcNode place)))) := by
  subst exec
  by_cases usable : (graph.nodes src).Usable .kDirectionOutType srcIndex
  · obtain ⟨srcNode,recordOut,adds,sameControl⟩ := (graph.nodes src).recordEdge_out out usable
    refine .inr ⟨usable,srcNode,_,rfl,adds,?_⟩
    generalize ((graph.nodes src).slot .kDirectionOutType srcIndex).length = place at recordOut
    have index : (setOutIndex objects edge (ofNat place) edge).dstInput = dstIndex := by simpa [setOutIndex]
    have control : (update graph.nodes src srcNode dst).inControlEdges = (graph.nodes dst).inControlEdges := by
      by_cases same : dst = src
      · subst same
        rw [update_self,sameControl]
      · rw [update_of_ne same]
    rcases FastNode.recordEdge_in (update graph.nodes src srcNode dst) index with
      ⟨dstNode,place',recordIn,adds',usable',placeEq⟩ | ⟨data,recordIn⟩
    · rw [control] at placeEq
      refine .inl ⟨dstNode,place',adds',usable',placeEq,?_⟩
      simp only [recordEnds,recordOut,recordIn]
      rfl
    · refine .inr ⟨data,?_⟩
      simp only [recordEnds,recordOut,recordIn,update_eq_self,update_self]
      rfl
  · obtain ⟨position,recordOut⟩ := (graph.nodes src).recordEdge_out_failed out usable
    refine .inl ⟨usable,position,?_⟩
    simp only [recordEnds,recordOut,update_eq_self]
    rfl

omit [DecidableEq Node] [DecidableEq Edge] in
theorem Consistent.not_recorded (consistent : graph.Consistent) (absent : edge ∉ graph.edges) (node : Node)
    (type : DirectionType) (index : Int32) (place : Nat) : ¬graph.Recorded node type index place edge :=
  fun recorded => absent ((consistent.recorded _ _ _ _ _).mp recorded).1

omit [DecidableEq Node] [DecidableEq Edge] in
theorem Consistent.of_added (consistent : graph.Consistent) (absent : edge ∉ graph.edges)
    (edges : after.edges = graph.edges ++ [edge]) (objects : ∀ e, e ≠ edge → after.objects e = graph.objects e)
    (recorded : ∀ node type index place e, after.Recorded node type index place e ↔
      graph.Recorded node type index place e ∨ (e = edge ∧ (after.objects edge).endOf type = some node ∧
        (after.objects edge).index type = index ∧ sizeT ((after.objects edge).position type) = place))
    (ends : ∀ type, ∃ node, (after.objects edge).endOf type = some node ∧
      (after.nodes node).Usable type ((after.objects edge).index type))
    (usable : ∀ node t i, (after.nodes node).Usable t i ↔ (graph.nodes node).Usable t i)
    (counted : ∀ node, (after.nodes node).counts = (after.nodes node).countEntries)
    (distinct : (after.edges ++ after.freeEdges).Nodup) : after.Consistent := by
  refine ⟨?_,?_,?_,counted,distinct⟩
  · intro node type index place e
    rw [recorded,edges,mem_append,mem_singleton]
    by_cases same : e = edge
    · subst same
      simp [consistent.not_recorded absent]
    · rw [consistent.recorded,objects e same]
      simp [same]
  · intro e member type
    rw [edges,mem_append,mem_singleton] at member
    by_cases same : e = edge
    · subst same
      obtain ⟨node,found,_⟩ := ends type
      rw [found]
      rfl
    · rw [objects e same]
      exact consistent.ends e (member.resolve_right same) type
  · intro node type index place e found
    rw [recorded] at found
    cases found with
    | inl found =>
      rw [usable]
      exact consistent.usable node type index place e found
    | inr found =>
      obtain ⟨rfl,atNode,rfl,_⟩ := found
      obtain ⟨node',atNode',use⟩ := ends type
      rw [atNode] at atNode'
      rwa [Option.some.inj atNode']

omit [DecidableEq Edge] in
theorem sameEdges_of_drops {node : Node} {changed restored : FastNode Edge} {type : DirectionType} {index : Int32}
    {place : Nat} (adds : FastNode.Adds (graph.nodes node) changed type index place edge)
    (drops : FastNode.Drops changed restored type index place)
    (nodes : after.nodes = update (update graph.nodes node changed) node restored)
    (edges : after.edges = graph.edges) : SameEdges graph after := by
  have drops' : FastNode.Drops (update graph.nodes node changed node) restored type index place := by
    rwa [update_self]
  refine ⟨?_,?_,edges⟩
  · intro n t i p e
    rw [Recorded,nodes,holds_of_drops drops',holds_of_adds adds]
    constructor
    · intro h
      exact h.1.resolve_right fun there => h.2 ⟨there.1,there.2.1,there.2.2.1,there.2.2.2.1⟩
    · intro found
      refine ⟨.inl found,?_⟩
      rintro ⟨rfl,rfl,rfl,rfl⟩
      exact adds.vacant e found
  · intro n
    rw [nodes]
    by_cases same : n = node
    · subst same
      rw [update_self,drops.counts,adds.counts,EdgeCounts.down_up]
    · rw [update_of_ne same,update_of_ne same]

section Records

variable {srcNode dstNode : FastNode Edge} {place place' : Nat}

theorem objects_withRecords : (graph.withRecords edge freeEdges objects src dst srcNode dstNode place place').objects edge =
    { objects edge with outEdgeIndex := ofNat place,inEdgeIndex := ofNat place' } := storePositions_self

variable (self : objects edge = { graph.objects edge with
    src := some src,dst := some dst,srcOutput := srcIndex,dstInput := dstIndex })
  (other : ∀ e, e ≠ edge → objects e = graph.objects e)
  (adds : FastNode.Adds (graph.nodes src) srcNode .kDirectionOutType srcIndex place edge)
  (adds' : FastNode.Adds (update graph.nodes src srcNode dst) dstNode .kDirectionInType dstIndex place' edge)
include self adds adds'

theorem recorded_withRecords (node : Node) (type : DirectionType) (index : Int32) (p : Nat) (e : Edge) :
    (graph.withRecords edge freeEdges objects src dst srcNode dstNode place place').Recorded node type index p e ↔
      graph.Recorded node type index p e ∨
      (e = edge ∧ (objects edge).endOf type = some node ∧ (objects edge).index type = index ∧
        p = if type = .kDirectionInType then place' else place) := by
  unfold Recorded withRecords
  rw [holds_of_adds adds',holds_of_adds adds,or_assoc]
  apply or_congr_right
  cases type <;> simp [self,FastEdge.endOf,FastEdge.index] <;> tauto

include other

theorem Consistent.withRecords (consistent : graph.Consistent) (absent : edge ∉ graph.edges)
    (distinct : (graph.edges ++ (freeEdges ++ [edge])).Nodup) (usable : (graph.nodes src).Usable .kDirectionOutType srcIndex)
    (usable' : (update graph.nodes src srcNode dst).Usable .kDirectionInType dstIndex)
    (stored : Storable place) (stored' : Storable place') :
    (graph.withRecords edge freeEdges objects src dst srcNode dstNode place place').Consistent := by
  have sameUse : ∀ node t i, ((graph.withRecords edge freeEdges objects src dst srcNode dstNode place
      place').nodes node).Usable t i ↔ (graph.nodes node).Usable t i := by
    intro node t i
    unfold FastGraphImpl.withRecords
    rw [usable_update adds'.usable,usable_update adds.usable]
  apply consistent.of_added absent rfl
  · intro e different
    exact (storePositions_other different).trans (other e different)
  · intro node type index p e
    rw [recorded_withRecords self adds adds',objects_withRecords]
    apply or_congr_right
    unfold Storable at stored stored'
    cases type <;> simp [FastEdge.endOf,FastEdge.index,FastEdge.position,stored,stored',eq_comm]
  · intro type
    rw [objects_withRecords,self]
    cases type with
    | kDirectionInType =>
      refine ⟨dst,rfl,?_⟩
      rwa [sameUse,← usable_update adds.usable]
    | kDirectionOutType =>
      refine ⟨src,rfl,?_⟩
      rwa [sameUse]
  · exact sameUse
  · apply counted_update
    · exact counted_update consistent.counted adds.counted
    · exact adds'.counted
  · have moved : (graph.edges ++ (freeEdges ++ [edge])).Perm (graph.edges ++ [edge] ++ freeEdges) := by
      rw [append_assoc]
      exact perm_append_comm.append_left _
    exact moved.nodup_iff.mp distinct

omit other in
theorem storable_of_sound (sound : (graph.withRecords edge freeEdges objects src dst srcNode dstNode place place').Sound) :
    Storable place ∧ Storable place' := by
  have stored := fun type => sound.recorded edge (mem_append_right _ (mem_singleton_self _)) type
  simp only [objects_withRecords,recorded_withRecords self adds adds'] at stored
  constructor
  · obtain ⟨node,found,positions⟩ := stored .kDirectionOutType
    exact ((positions place).mp (.inr ⟨trivial,found,rfl,rfl⟩)).symm
  · obtain ⟨node,found,positions⟩ := stored .kDirectionInType
    exact ((positions place').mp (.inr ⟨trivial,found,rfl,rfl⟩)).symm

omit adds'
variable (consistent : graph.Consistent) (absent : edge ∉ graph.edges)
include consistent absent

omit [DecidableEq Node] [DecidableEq Edge] self other in
theorem held_iff_storable : srcNode.Holds .kDirectionOutType srcIndex (sizeT (ofNat place)) edge ↔ Storable place := by
  have unheld : ¬(graph.nodes src).Holds .kDirectionOutType srcIndex (sizeT (ofNat place)) edge :=
    consistent.not_recorded absent src _ _ _
  rw [adds.holds,or_iff_right unheld]
  simp [Storable]

theorem Consistent.takenBack (distinct : (graph.edges ++ (freeEdges ++ [edge])).Nodup)
    (usable : (graph.nodes src).Usable .kDirectionOutType srcIndex) (stored : Storable place) :
    (graph.takenBack edge freeEdges objects src srcNode place).Consistent ∧
      SameEdges graph (graph.takenBack edge freeEdges objects src srcNode place) := by
  have held := (held_iff_storable adds consistent absent).mpr stored
  have index : (storePositions objects edge (ofNat place) 0 edge).srcOutput = srcIndex := by
    rw [storePositions_self,self]
  obtain ⟨restored,erased,drops⟩ := srcNode.eraseEdge_out index
    ((adds.usable .kDirectionOutType srcIndex).mpr usable)
    (by simpa only [storePositions_self] using held)
  have position : sizeT (ofNat place) = place := stored
  simp only [storePositions_self,position] at drops
  have nodes : (graph.takenBack edge freeEdges objects src srcNode place).nodes =
      update (update graph.nodes src srcNode) src restored := by
    rw [FastGraphImpl.takenBack,erased]
  have same : SameEdges graph (graph.takenBack edge freeEdges objects src srcNode place) :=
    sameEdges_of_drops adds drops nodes rfl
  refine ⟨?_,same⟩
  apply consistent.of_same same
  · intro e member
    have apart : e ≠ edge := fun equal => absent (equal ▸ member)
    exact (storePositions_other apart).trans (other e apart)
  · intro node t i
    rw [nodes,update_idem,usable_update]
    exact fun t i => (drops.usable t i).trans (adds.usable t i)
  · rw [nodes,update_idem]
    exact counted_update consistent.counted fun counted => drops.counted (adds.counted counted)
  · exact distinct

omit other in
theorem storable_of_takenBack
    (same : SameEdges graph (graph.takenBack edge freeEdges objects src srcNode place)) : Storable place := by
  by_contra unstored
  have unheld := mt (held_iff_storable adds consistent absent).mp unstored
  have index : (storePositions objects edge (ofNat place) 0 edge).srcOutput = srcIndex := by
    rw [storePositions_self,self]
  have failed := srcNode.eraseEdge_out_failed index (by simpa only [storePositions_self] using unheld)
  have stale : (graph.takenBack edge freeEdges objects src srcNode place).Recorded src .kDirectionOutType srcIndex place
      edge := by
    unfold Recorded takenBack
    dsimp only
    rw [failed,update_self,adds.holds]
    exact .inr ⟨rfl,rfl,rfl,rfl⟩
  exact consistent.not_recorded absent _ _ _ _ ((same.recorded _ _ _ _ _).mp stale)

end Records

theorem Consistent.recordEnds_iff (consistent : graph.Consistent) (absent : edge ∉ graph.edges)
    (distinct : (graph.edges ++ (freeEdges ++ [edge])).Nodup)
    (result : Option Edge × FastGraphImpl Node Edge) (exec : graph.recordEnds edge freeEdges
      (assignEnds graph.objects edge src srcIndex dst dstIndex) src dst = result) :
    (graph.RoomFor src srcIndex dst dstIndex → result.2.Consistent ∧ (result.1 = none → SameEdges graph result.2)) ∧
    (result.2.Sound → (result.1 = none → SameEdges graph result.2) → graph.RoomFor src srcIndex dst dstIndex) := by
  have self : assignEnds graph.objects edge src srcIndex dst dstIndex edge = { graph.objects edge with
      src := some src,dst := some dst,srcOutput := srcIndex,dstInput := dstIndex } := by simp [assignEnds]
  have other : ∀ e, e ≠ edge → assignEnds graph.objects edge src srcIndex dst dstIndex e = graph.objects e := by
    intro e different
    simp [assignEnds,different]
  have apart : ∀ e ∈ graph.edges, e ≠ edge := fun e member same => absent (same ▸ member)
  rcases recordEnds_cases exec (by rw [self] : _ = srcIndex) (by rw [self] : _ = dstIndex) with
    ⟨unusable,position,rfl⟩ | ⟨usable,srcNode,place,placeEq,adds,both | failed⟩
  · have same : SameEdges graph { graph with
        objects := setOutIndex (assignEnds graph.objects edge src srcIndex dst dstIndex) edge position
        freeEdges := freeEdges ++ [edge] } := ⟨fun _ _ _ _ _ => Iff.rfl,fun _ => rfl,rfl⟩
    refine ⟨fun _ => ⟨?_,fun _ => same⟩,fun _ _ used => absurd used unusable⟩
    apply consistent.of_same same
    · intro e member
      simp [setOutIndex,apart e member,other e (apart e member)]
    · exact fun _ _ _ => Iff.rfl
    · exact consistent.counted
    · exact distinct
  · obtain ⟨dstNode,place',adds',usable',placeEq',rfl⟩ := both
    constructor
    · intro room
      have stored := room usable
      have stored' : Storable place' := by
        rw [placeEq']
        split
        · next control => exact stored.2 control
        · exact rfl
      rw [← placeEq] at stored
      exact ⟨consistent.withRecords self other adds adds' absent distinct usable usable' stored.1 stored',fun none =>
        by cases none⟩
    · intro sound _ _
      obtain ⟨stored,stored'⟩ := storable_of_sound self adds adds' sound
      refine ⟨placeEq ▸ stored,?_⟩
      intro control
      rwa [placeEq',if_pos control] at stored'
  · obtain ⟨data,rfl⟩ := failed
    constructor
    · intro room
      have stored : Storable place := placeEq ▸ (room usable).1
      have result := consistent.takenBack self other adds absent distinct usable stored
      exact ⟨result.1,fun _ => result.2⟩
    · intro _ same _
      exact ⟨placeEq ▸ storable_of_takenBack self adds consistent absent (same rfl),fun control => absurd control data⟩

end FastGraphImpl

end GraphEngine.FastGraph
