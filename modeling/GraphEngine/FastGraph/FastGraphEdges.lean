import GraphEngine.FastGraph.FastGraphImpl

/-! The edges of a fast graph over all sequences of calls. -/

namespace GraphEngine.FastGraph

open Function List Option FastGraphImpl

variable {Node Edge : Type} [DecidableEq Node] [DecidableEq Edge]

namespace FastGraphImpl

variable {graph after : FastGraphImpl Node Edge} {edge : Edge} {freeEdges : List Edge}

omit [DecidableEq Node] [DecidableEq Edge] in
theorem takeEdge_fresh {allocated : Option Edge} (consistent : graph.Consistent)
    (fresh : ∀ e, allocated = some e → e ∉ graph.edges ++ graph.freeEdges)
    (taken : graph.takeEdge allocated = some (edge,freeEdges)) :
    edge ∉ graph.edges ∧ (graph.edges ++ (freeEdges ++ [edge])).Nodup := by
  have distinct : (edge :: (graph.edges ++ freeEdges)).Nodup := by
    unfold takeEdge at taken
    split at taken
    · next none =>
      obtain ⟨e,found,same⟩ := map_eq_some_iff.mp taken
      cases same
      have unused := fresh _ found
      have whole := consistent.distinct
      rw [none] at unused whole
      exact nodup_cons.mpr ⟨unused,whole⟩
    · next first rest some =>
      cases taken
      have whole := consistent.distinct
      rw [some] at whole
      exact (perm_middle.nodup_iff).mp whole
  have moved : (edge :: (graph.edges ++ freeEdges)).Perm (graph.edges ++ (freeEdges ++ [edge])) := by
    rw [← append_assoc]
    exact (perm_append_singleton _ _).symm
  refine ⟨?_,moved.nodup_iff.mp distinct⟩
  intro member
  exact (nodup_cons.mp distinct).1 (mem_append_left _ member)

omit [DecidableEq Node] [DecidableEq Edge] in
theorem recorded_unique {node : Node} {type : DirectionType} {index : Int32} {place : Nat} {e : Edge}
    (first : graph.Recorded node type index place edge) (second : graph.Recorded node type index place e) : e = edge := by
  rw [Recorded,FastNode.Holds] at first second
  rw [first] at second
  simpa using second.symm

section

variable (consistent : graph.Consistent)
include consistent

omit [DecidableEq Node] [DecidableEq Edge] in
theorem Consistent.recorded_end (member : edge ∈ graph.edges) (type : DirectionType) :
    ∃ node, (graph.objects edge).endOf type = some node ∧ graph.Recorded node type ((graph.objects edge).index type)
      (sizeT ((graph.objects edge).position type)) edge := by
  obtain ⟨node,found⟩ := isSome_iff_exists.mp (consistent.ends edge member type)
  exact ⟨node,found,(consistent.recorded _ _ _ _ _).mpr ⟨member,found,rfl,rfl⟩⟩

theorem Consistent.removeEdge_eq (member : edge ∈ graph.edges) :
    ∃ src dst srcNode dstNode objects, (graph.objects edge).src = some src ∧ (graph.objects edge).dst = some dst ∧
      FastNode.Drops (graph.nodes src) srcNode .kDirectionOutType (graph.objects edge).srcOutput
        (sizeT (graph.objects edge).outEdgeIndex) ∧
      FastNode.Drops (update graph.nodes src srcNode dst) dstNode .kDirectionInType (graph.objects edge).dstInput
        (sizeT (graph.objects edge).inEdgeIndex) ∧
      (∀ e, e ≠ edge → objects e = graph.objects e) ∧ (graph.removeEdge edge).2 = {
        nodes := update (update graph.nodes src srcNode) dst dstNode
        objects := objects
        edges := graph.edges.erase edge
        freeEdges := graph.freeEdges ++ [edge] } := by
  obtain ⟨src,srcEq,heldOut⟩ := consistent.recorded_end member .kDirectionOutType
  obtain ⟨dst,dstEq,heldIn⟩ := consistent.recorded_end member .kDirectionInType
  have usableOut := consistent.usable _ _ _ _ _ heldOut
  have usableIn := consistent.usable _ _ _ _ _ heldIn
  obtain ⟨srcNode,erased,drops⟩ := (graph.nodes src).eraseEdge_out rfl usableOut heldOut
  generalize objectsEq : update graph.objects edge { graph.objects edge with src := none } = objects
  have self : objects edge = { graph.objects edge with src := none } := by rw [← objectsEq,update_self]
  obtain ⟨dstNode,erased',drops'⟩ := FastNode.eraseEdge_in (update graph.nodes src srcNode dst) (congrArg FastEdge.dstInput self)
    ((usable_update drops.usable _ _ _).mpr usableIn)
    (by rw [self,holds_of_drops drops]; exact ⟨heldIn,by simp⟩)
  have first : graph.detachSrc edge = { graph with
      nodes := update graph.nodes src srcNode
      objects := objects } := by
    have found : (graph.objects edge).src = some src := srcEq
    simp only [detachSrc,found,erased,objectsEq]
  rw [self] at drops'
  refine ⟨src,dst,srcNode,dstNode,update objects edge { objects edge with dst := none },srcEq,dstEq,drops,drops',
    ?_,?_⟩
  · intro e different
    rw [update_of_ne different,← objectsEq,update_of_ne different]
  · have found : (objects edge).dst = some dst := by
      rw [self]
      exact dstEq
    simp only [removeEdge,member,not_true,if_false,first,detachDst,found,erased']

theorem Consistent.removeEdge (edge : Edge) : (graph.removeEdge edge).2.Consistent := by
  by_cases member : edge ∈ graph.edges
  swap
  · simpa [FastGraphImpl.removeEdge,member] using consistent
  obtain ⟨src,dst,srcNode,dstNode,objects,srcEq,dstEq,drops,drops',other,result⟩ := consistent.removeEdge_eq member
  have nodup : graph.edges.Nodup := (nodup_append.mp consistent.distinct).1
  -- the records that are left are those of the other edges
  have left : ∀ node type index place e, (graph.removeEdge edge).2.Recorded node type index place e ↔
      graph.Recorded node type index place e ∧ e ≠ edge := by
    intro node type index place e
    have heldOut : graph.Recorded src .kDirectionOutType (graph.objects edge).srcOutput
        (sizeT (graph.objects edge).outEdgeIndex) edge := (consistent.recorded _ _ _ _ _).mpr ⟨member,srcEq,rfl,rfl⟩
    have heldIn : graph.Recorded dst .kDirectionInType (graph.objects edge).dstInput
        (sizeT (graph.objects edge).inEdgeIndex) edge := (consistent.recorded _ _ _ _ _).mpr ⟨member,dstEq,rfl,rfl⟩
    rw [result,Recorded,holds_of_drops drops',holds_of_drops drops,and_assoc]
    refine and_congr_right fun recorded => ?_
    constructor
    · rintro ⟨notOut,notIn⟩ rfl
      obtain ⟨_,found,rfl,rfl⟩ := (consistent.recorded _ _ _ _ _).mp recorded
      cases type with
      | kDirectionOutType => exact notOut ⟨some.inj (found.symm.trans srcEq),rfl,rfl,rfl⟩
      | kDirectionInType => exact notIn ⟨some.inj (found.symm.trans dstEq),rfl,rfl,rfl⟩
    · intro different
      constructor
      · rintro ⟨rfl,rfl,rfl,rfl⟩
        exact different (recorded_unique heldOut recorded)
      · rintro ⟨rfl,rfl,rfl,rfl⟩
        exact different (recorded_unique heldIn recorded)
  have sameObjects : ∀ e, e ≠ edge → (graph.removeEdge edge).2.objects e = graph.objects e := by rwa [result]
  have mem_edges : ∀ e, e ∈ (graph.removeEdge edge).2.edges ↔ e ≠ edge ∧ e ∈ graph.edges := by
    rw [result]
    exact fun e => nodup.mem_erase_iff
  refine ⟨?_,?_,?_,?_,?_⟩
  · intro node type index place e
    rw [left,consistent.recorded,mem_edges,and_comm,and_assoc]
    exact and_congr_right fun different => by rw [sameObjects e different]
  · intro e inside type
    obtain ⟨different,inside⟩ := (mem_edges e).mp inside
    rw [sameObjects e different]
    exact consistent.ends e inside type
  · intro node type index place e recorded
    rw [result,usable_update drops'.usable,usable_update drops.usable]
    exact consistent.usable _ _ _ _ _ ((left _ _ _ _ _).mp recorded).1
  · rw [result]
    exact counted_update (counted_update consistent.counted drops.counted) drops'.counted
  · have moved : (graph.edges.erase edge ++ (graph.freeEdges ++ [edge])).Perm (graph.edges ++ graph.freeEdges) := by
      rw [← append_assoc]
      apply (perm_append_singleton _ _).trans
      exact (perm_cons_erase member).symm.append_right _
    rw [result]
    exact moved.nodup_iff.mpr consistent.distinct

end

section Moves

open FastNode

variable {node : Node} {type : DirectionType} {ioIdx cur replace : Int32}

/-- The edge that `MoveEdge` finds at the new position. -/
def movedEdge (graph : FastGraphImpl Node Edge) (node : Node) (type : DirectionType) (ioIdx cur replace : Int32) :
    Option Edge :=
  (moveEntry ((graph.nodes node).slot type ioIdx) (sizeT cur) (sizeT replace)).getD (sizeT replace) none

structure Moved (graph after : FastGraphImpl Node Edge) (node : Node) (type : DirectionType)
    (ioIdx cur replace : Int32) : Prop where
  objects : after.objects = movedObjects graph.objects type (graph.movedEdge node type ioIdx cur replace) replace
  edges : after.edges = graph.edges
  freeEdges : after.freeEdges = graph.freeEdges
  recorded : ∀ n t i p e, after.Recorded n t i p e ↔
    if n = node ∧ t = type ∧ i = ioIdx then p ≠ sizeT cur ∧
      graph.Recorded node type ioIdx (if p = sizeT replace then sizeT cur else p) e
    else graph.Recorded n t i p e
  usable : ∀ n t i, (after.nodes n).Usable t i ↔ (graph.nodes n).Usable t i
  counted : (∀ n, (graph.nodes n).counts = (graph.nodes n).countEntries) →
    ((graph.nodes node).slot type ioIdx)[sizeT replace]? = some none →
    ∀ n, (after.nodes n).counts = (after.nodes n).countEntries
  moved : ∀ e, graph.movedEdge node type ioIdx cur replace = some e ↔
    sizeT replace ≠ sizeT cur ∧ graph.Recorded node type ioIdx (sizeT cur) e

theorem moveEdge_moved (accepted : (graph.nodes node).checkAllInputParamter type ioIdx cur replace = .success)
    (moving : ¬(type = .kDirectionInType ∧ ioIdx ≠ kControlEdgeIndex)) :
    Moved graph (graph.moveEdge node type ioIdx cur replace).2 node type ioIdx cur replace ∧
      sizeT replace < ((graph.nodes node).slot type ioIdx).length := by
  obtain ⟨changed,exec,change,counts,entries,curBound,replaceBound⟩ := moveEdge_moves graph.objects accepted moving
  have result : (graph.moveEdge node type ioIdx cur replace).2 = { graph with
      nodes := update graph.nodes node changed
      objects := movedObjects graph.objects type (graph.movedEdge node type ioIdx cur replace) replace } := by
    simp only [moveEdge,exec,movedEdge]
  rw [result]
  refine ⟨⟨rfl,rfl,rfl,?_,usable_update change.usable,?_,?_⟩,replaceBound⟩
  · intro n t i p e
    unfold Recorded
    by_cases same : n = node
    · subst same
      dsimp only
      rw [update_self]
      by_cases slot : t = type ∧ i = ioIdx
      · obtain ⟨rfl,rfl⟩ := slot
        rw [if_pos ⟨rfl,rfl,rfl⟩,change.holds_same,getElem?_moveEntry curBound replaceBound,Holds]
      · rw [if_neg fun h => slot h.2,change.holds_other slot]
    · dsimp only
      rw [update_of_ne same,if_neg fun h => same h.1]
  · intro counted vacant
    apply counted_update counted
    intro before
    rw [counts,entries (live_moveEntry curBound vacant),before]
  · intro e
    rw [movedEdge,getD_eq_some_iff,getElem?_moveEntry curBound replaceBound,if_pos rfl]
    rfl

variable (moved : Moved graph after node type ioIdx cur replace)
include moved

theorem Moved.recorded_other (vacant : ((graph.nodes node).slot type ioIdx)[sizeT replace]? = some none) {e : Edge}
    (other : graph.movedEdge node type ioIdx cur replace ≠ some e) (n : Node) (t : DirectionType) (i : Int32) (p : Nat) :
    after.Recorded n t i p e ↔ graph.Recorded n t i p e := by
  rw [moved.recorded]
  split
  · next same =>
    obtain ⟨rfl,rfl,rfl⟩ := same
    have unmoved := mt (moved.moved e).mpr other
    have unheld : ¬graph.Recorded n t i (sizeT replace) e := by
      rw [Recorded,Holds,vacant]
      simp
    by_cases atReplace : p = sizeT replace
    · subst atReplace
      rw [if_pos rfl]
      exact iff_of_false unmoved unheld
    · rw [if_neg atReplace]
      refine ⟨And.right,fun held => ⟨?_,held⟩⟩
      rintro rfl
      exact unmoved ⟨Ne.symm atReplace,held⟩
  · rfl

theorem Moved.recorded_self (consistent : graph.Consistent)
    {e : Edge} (found : graph.movedEdge node type ioIdx cur replace = some e) (n : Node) (t : DirectionType) (i : Int32)
    (p : Nat) : after.Recorded n t i p e ↔ (graph.objects e).endOf t = some n ∧ (graph.objects e).index t = i ∧
      sizeT (if t = type then replace else (graph.objects e).position t) = p := by
  obtain ⟨apart,held⟩ := (moved.moved e).mp found
  obtain ⟨member,atNode,atIndex,atPlace⟩ := (consistent.recorded _ _ _ _ _).mp held
  rw [moved.recorded]
  split
  · next same =>
    obtain ⟨rfl,rfl,rfl⟩ := same
    rw [if_pos rfl]
    by_cases atReplace : p = sizeT replace
    · subst atReplace
      rw [if_pos rfl]
      exact iff_of_true ⟨apart,held⟩ ⟨atNode,atIndex,rfl⟩
    · rw [if_neg atReplace]
      refine iff_of_false ?_ fun h => atReplace h.2.2.symm
      rintro ⟨different,held'⟩
      exact different (((consistent.recorded _ _ _ _ _).mp held').2.2.2.symm.trans atPlace)
  · next different =>
    rw [consistent.recorded,and_iff_right member]
    refine and_congr_right fun there => and_congr_right fun index => ?_
    have other : t ≠ type := by
      rintro rfl
      exact different ⟨some.inj (there.symm.trans atNode),rfl,index.symm.trans atIndex⟩
    rw [if_neg other]

theorem Consistent.of_moved (consistent : graph.Consistent)
    (vacant : ((graph.nodes node).slot type ioIdx)[sizeT replace]? = some none) : after.Consistent := by
  have object : ∀ e t, (after.objects e).endOf t = (graph.objects e).endOf t := by
    intro e t
    rw [moved.objects]
    by_cases found : graph.movedEdge node type ioIdx cur replace = some e
    · rw [found]
      exact (movedObjects_self t).1
    · rw [movedObjects_other found]
  refine ⟨?_,?_,?_,moved.counted consistent.counted vacant,?_⟩
  · intro n t i p e
    by_cases found : graph.movedEdge node type ioIdx cur replace = some e
    · obtain ⟨_,held⟩ := (moved.moved e).mp found
      have member := ((consistent.recorded _ _ _ _ _).mp held).1
      rw [moved.recorded_self consistent found,moved.edges,and_iff_right member,moved.objects,found,
        (movedObjects_self t).1,(movedObjects_self t).2.1,(movedObjects_self t).2.2]
    · rw [moved.recorded_other vacant found,consistent.recorded,moved.edges,moved.objects,movedObjects_other found]
  · intro e member type
    rw [moved.edges] at member
    rw [object]
    exact consistent.ends e member type
  · intro n t i p e recorded
    rw [moved.usable]
    rw [moved.recorded] at recorded
    split at recorded
    · next same =>
      obtain ⟨rfl,rfl,rfl⟩ := same
      exact consistent.usable _ _ _ _ _ recorded.2
    · exact consistent.usable _ _ _ _ _ recorded
  · rw [moved.edges,moved.freeEdges]
    exact consistent.distinct

theorem Moved.vacant_of_sound (consistent : graph.Consistent)
    (bound : sizeT replace < ((graph.nodes node).slot type ioIdx).length) (sound : after.Sound) :
    ((graph.nodes node).slot type ioIdx)[sizeT replace]? = some none := by
  rw [getElem?_eq_getElem bound]
  cases entry : ((graph.nodes node).slot type ioIdx)[sizeT replace] with
  | none => rfl
  | some e =>
    have held : graph.Recorded node type ioIdx (sizeT replace) e := by
      rw [Recorded,Holds,getElem?_eq_getElem bound,entry]
    obtain ⟨member,atNode,atIndex,atPlace⟩ := (consistent.recorded _ _ _ _ _).mp held
    have unmoved : graph.movedEdge node type ioIdx cur replace ≠ some e := by
      intro found
      obtain ⟨apart,held'⟩ := (moved.moved e).mp found
      exact apart (atPlace.symm.trans ((consistent.recorded _ _ _ _ _).mp held').2.2.2)
    rw [← moved.edges] at member
    obtain ⟨node',atNode',places⟩ := sound.recorded e member type
    rw [moved.objects,movedObjects_other unmoved] at atNode' places
    cases some.inj (atNode.symm.trans atNode')
    have lost := (places (sizeT replace)).mpr atPlace.symm
    rw [atIndex,moved.recorded,if_pos ⟨rfl,rfl,rfl⟩,if_pos rfl] at lost
    exact absurd ((moved.moved e).mpr lost) unmoved

end Moves

end FastGraphImpl

def EdgeCall.Fresh (graph : FastGraphImpl Node Edge) : EdgeCall Node Edge → Prop
  | .addEdge allocated _ _ _ _ => ∀ e, allocated = some e → e ∉ graph.edges ++ graph.freeEdges
  | _ => True

/-- A failing `AddEdge` leaves the edges as they were. -/
def EdgeCall.Unharmed (graph : FastGraphImpl Node Edge) : EdgeCall Node Edge → Prop
  | .addEdge allocated src srcIndex dst dstIndex => (graph.addEdge allocated src srcIndex dst dstIndex).1 = none →
    FastGraphImpl.SameEdges graph (graph.addEdge allocated src srcIndex dst dstIndex).2
  | _ => True

def EdgeCall.Decided (graph : FastGraphImpl Node Edge) (call : EdgeCall Node Edge) : Prop :=
  (call.Keeps graph → (call.exec graph).Consistent ∧ call.Unharmed graph) ∧
    ((call.exec graph).Sound → call.Unharmed graph → call.Keeps graph)

namespace FastGraphImpl

variable {graph : FastGraphImpl Node Edge}

omit [DecidableEq Node] [DecidableEq Edge] in
theorem sameEdges_refl (graph : FastGraphImpl Node Edge) : SameEdges graph graph :=
  ⟨fun _ _ _ _ _ => Iff.rfl,fun _ => rfl,rfl⟩

variable (consistent : graph.Consistent)
include consistent

theorem Consistent.addEdge_iff (allocated : Option Edge) (src : Node) (srcIndex : Int32)
    (dst : Node) (dstIndex : Int32) (fresh : (EdgeCall.addEdge allocated src srcIndex dst dstIndex).Fresh graph) :
    (EdgeCall.addEdge allocated src srcIndex dst dstIndex).Decided graph := by
  unfold EdgeCall.Decided EdgeCall.Unharmed EdgeCall.Keeps EdgeCall.exec addEdge
  dsimp only
  cases disagree : ioIndexesDisagree srcIndex dstIndex with
  | true => exact ⟨fun _ => ⟨consistent,fun _ => sameEdges_refl graph⟩,fun _ _ => nofun⟩
  | false =>
    cases taken : graph.takeEdge allocated with
    | none => exact ⟨fun _ => ⟨consistent,fun _ => sameEdges_refl graph⟩,fun _ _ _ some => absurd rfl some⟩
    | some pair =>
      obtain ⟨edge,freeEdges⟩ := pair
      obtain ⟨absent,distinct⟩ := takeEdge_fresh consistent fresh taken
      obtain ⟨keeps,needs⟩ := consistent.recordEnds_iff absent distinct _ rfl
      exact ⟨fun room => keeps (room rfl nofun),fun sound same _ _ => needs sound same⟩

theorem Consistent.moveEdge_iff (node : Node) (type : DirectionType) (ioIdx cur replace : Int32) :
    (EdgeCall.moveEdge node type ioIdx cur replace).Decided graph := by
  unfold EdgeCall.Decided EdgeCall.Unharmed EdgeCall.exec
  dsimp only
  by_cases accepted : (graph.nodes node).checkAllInputParamter type ioIdx cur replace = .success
  · by_cases moving : type = .kDirectionInType ∧ ioIdx ≠ kControlEdgeIndex
    · obtain ⟨rfl,data⟩ := moving
      have unchanged : (graph.moveEdge node .kDirectionInType ioIdx cur replace).2 = graph := by
        simp only [moveEdge,FastNode.moveEdge_in_data data,update_eq_self]
      rw [unchanged]
      exact ⟨fun _ => ⟨consistent,trivial⟩,fun _ _ _ moving => absurd ⟨rfl,data⟩ moving⟩
    · obtain ⟨moved,bound⟩ := moveEdge_moved accepted moving
      constructor
      · exact fun keeps => ⟨consistent.of_moved moved (keeps accepted moving),trivial⟩
      · exact fun sound _ _ _ => moved.vacant_of_sound consistent bound sound
  · have unchanged : (graph.moveEdge node type ioIdx cur replace).2 = graph := by
      simp only [moveEdge,FastNode.moveEdge_rejected accepted,update_eq_self]
    rw [unchanged]
    exact ⟨fun _ => ⟨consistent,trivial⟩,fun _ _ success => absurd success accepted⟩

theorem Consistent.exec_iff (call : EdgeCall Node Edge) (fresh : call.Fresh graph) :
    (call.Keeps graph → (call.exec graph).Consistent) ∧
      ((call.exec graph).Sound ∧ call.Unharmed graph ↔ call.Keeps graph) := by
  have decided : call.Decided graph := by
    cases call with
    | addEdge allocated src srcIndex dst dstIndex => exact consistent.addEdge_iff allocated src srcIndex dst dstIndex fresh
    | removeEdge edge => exact ⟨fun _ => ⟨consistent.removeEdge edge,trivial⟩,fun _ _ => trivial⟩
    | moveEdge node type ioIdx cur replace => exact consistent.moveEdge_iff node type ioIdx cur replace
  refine ⟨fun room => (decided.1 room).1,fun result => decided.2 result.1 result.2,?_⟩
  intro room
  obtain ⟨after,unharmed⟩ := decided.1 room
  exact ⟨after.sound,unharmed⟩

end FastGraphImpl

def FastGraphImpl.empty (dataInNum dataOutNum : Node → Nat) (objects : Edge → FastEdge Node) :
    FastGraphImpl Node Edge where
  nodes node := FastNode.init (dataInNum node) (dataOutNum node)
  objects := objects
  edges := []
  freeEdges := []

omit [DecidableEq Edge] in
theorem FastNode.init_not_holds {dataInNum dataOutNum : Nat} {type : DirectionType} {index : Int32} {place : Nat}
    {edge : Edge} : ¬(init dataInNum dataOutNum).Holds type index place edge := by
  have entries : ∀ entry ∈ (init dataInNum dataOutNum : FastNode Edge).slot type index, entry = none := by
    intro entry member
    cases type with
    | kDirectionInType =>
      simp only [slot,init,getElem?_replicate] at member
      split at member <;> try split at member
      all_goals simp_all
    | kDirectionOutType =>
      simp only [slot,init,outDataVector,getD_eq_getElem?_getD,getElem?_replicate] at member
      split at member <;> try split at member
      all_goals simp_all
  intro held
  cases entries _ (mem_of_getElem? held)

omit [DecidableEq Node] [DecidableEq Edge] in
theorem empty_consistent (dataInNum dataOutNum : Node → Nat) (objects : Edge → FastEdge Node) :
    (FastGraphImpl.empty dataInNum dataOutNum objects).Consistent := by
  refine ⟨?_,nofun,?_,?_,nodup_nil⟩
  · intro node type index place edge
    exact iff_of_false FastNode.init_not_holds nofun
  · intro node type index place edge recorded
    exact absurd recorded FastNode.init_not_holds
  · intro node
    have empty : live ([] : List (Option Edge)) = 0 := rfl
    have nulls : live (List.replicate (dataInNum node) (none : Option Edge)) = 0 := by simp [live,countP_replicate]
    simp [FastGraphImpl.empty,FastNode.init,FastNode.countEntries,nulls,empty]

inductive EdgeRun (start : FastGraphImpl Node Edge) : FastGraphImpl Node Edge → Prop
  | start : EdgeRun start start
  | step {graph : FastGraphImpl Node Edge} (call : EdgeCall Node Edge) (earlier : EdgeRun start graph)
      (fresh : call.Fresh graph) (keeps : call.Keeps graph) : EdgeRun start (call.exec graph)

theorem EdgeRun.consistent {start graph : FastGraphImpl Node Edge} (initial : start.Consistent)
    (run : EdgeRun start graph) : graph.Consistent := by
  induction run with
  | start => exact initial
  | step call _ fresh keeps ih => exact (ih.exec_iff call fresh).1 keeps

/-- The edges stay as they should as long as no edge is moved onto another and every position fits its field, and the next
call keeps them so just if it meets this condition. -/
theorem fastGraph_edges {dataInNum dataOutNum : Node → Nat} {objects : Edge → FastEdge Node}
    {graph : FastGraphImpl Node Edge} (run : EdgeRun (.empty dataInNum dataOutNum objects) graph) :
    graph.Sound ∧ ∀ call : EdgeCall Node Edge, call.Fresh graph →
      ((call.exec graph).Sound ∧ call.Unharmed graph ↔ call.Keeps graph) := by
  have consistent := run.consistent (empty_consistent dataInNum dataOutNum objects)
  exact ⟨consistent.sound,fun call fresh => (consistent.exec_iff call fresh).2⟩

def pairOfNodes : FastGraphImpl Bool Nat :=
  .empty (fun node => if node then 2 else 0) (fun node => if node then 0 else 1) fun _ => {}

def firstEdge : EdgeCall Bool Nat := .addEdge (some 0) false 0 true 0

def secondEdge : EdgeCall Bool Nat := .addEdge (some 1) false 0 true 1

def twoEdges : FastGraphImpl Bool Nat := secondEdge.exec (firstEdge.exec pairOfNodes)

theorem twoEdges_run : EdgeRun pairOfNodes twoEdges := by
  apply EdgeRun.step
  · apply EdgeRun.step _ .start
    · intro e
      simp [pairOfNodes,empty]
    · intro _ _ _
      exact ⟨rfl,nofun⟩
  · intro e same
    cases same
    decide
  · intro _ _ _
    exact ⟨rfl,nofun⟩

theorem twoEdges_sound : twoEdges.Sound ∧ ((EdgeCall.removeEdge 0).exec twoEdges).Sound := by
  obtain ⟨sound,next⟩ := fastGraph_edges twoEdges_run
  exact ⟨sound,((next (.removeEdge 0) trivial).mpr trivial).1⟩

/-- The second edge is moved to the place of the first. -/
theorem twoEdges_overwritten : EdgeRun pairOfNodes twoEdges ∧
    ¬((EdgeCall.moveEdge false .kDirectionOutType 0 1 0).exec twoEdges).Sound := by
  refine ⟨twoEdges_run,?_⟩
  intro sound
  obtain ⟨node,found,places⟩ := sound.recorded 0 (by decide) .kDirectionOutType
  cases found
  have held := (places 0).mpr (by decide)
  revert held
  unfold FastGraphImpl.Recorded FastNode.Holds
  decide

end GraphEngine.FastGraph
