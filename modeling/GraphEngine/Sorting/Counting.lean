import Mathlib.Data.String.Basic
import GraphEngine.Lib.Countdown
import GraphEngine.Lib.Precedence
import GraphEngine.Lib.Contraction
import GraphEngine.Sorting.TopologicalSorting

/-! The two modes that count down edges: every node is taken once and after all nodes it has an edge from. -/

namespace GraphEngine.Sorting
open Lib Lib.Countdown Function List ComputeGraph
variable {Node : Type} [DecidableEq Node] {graph : ComputeGraph Node}

/-- The order has every node once, and each one before the nodes that follow it. -/
structure LinearExtension (graph : ComputeGraph Node) (next : Node → List Node) (order : List Node) : Prop where
  perm : order.Perm graph.nodes
  forward : ∀ u v, v ∈ next u → Precedes order u v

/-- What is asked of a graph: no cycle, no loop-back nodes, no two nodes with one name, and few enough edges into a
node to be counted with 32 bits. -/
structure Sortable (graph : ComputeGraph Node) : Prop where
  acyclic : Acyclic graph.Edge
  noLoopBack : ∀ node, graph.isNextIteration node = false
  distinctNames : ∀ u v, graph.name u = graph.name v → u = v
  countable : ∀ node, (graph.inPeers node).length < twoPow32

structure Plain (graph : ComputeGraph Node) : Prop where
  noLoopBack : ∀ node, graph.isNextIteration node = false
  distinctNames : ∀ u v, graph.name u = graph.name v → u = v
  countable : ∀ node, (graph.inPeers node).length < twoPow32

theorem Sortable.plain (sortable : Sortable graph) : Plain graph :=
  ⟨sortable.noLoopBack,sortable.distinctNames,sortable.countable⟩

@[reducible] def ComputeGraph.fintype (graph : ComputeGraph Node) : Fintype Node :=
  ⟨graph.nodes.toFinset,fun node => List.mem_toFinset.mpr (graph.all node)⟩

variable {u v : Node}

theorem mem_inAllNodes : u ∈ graph.inAllNodes v ↔ graph.Followed u v := by
  have data : u ∈ (graph.inDataAnchors v).filterMap Prod.fst ↔ v ∈ (graph.outDataAnchors u).flatMap Prod.fst := by
    rw [← count_pos_iff,← count_pos_iff,graph.dataLinks]
  have control : u ∈ graph.inControl v ↔ (v,false) ∈ graph.outControl u := by
    rw [← count_pos_iff,← count_pos_iff,graph.controlLinks]
  have flagged : v ∈ ((graph.outControl u).filter (!·.2)).map Prod.fst ↔ (v,false) ∈ graph.outControl u := by simp
  rw [inAllNodes,Followed,outAllNodes,mem_append,mem_append,data,control,flagged]

theorem ComputeGraph.Followed.edge (followed : graph.Followed u v) : graph.Edge u v := by
  rcases mem_append.mp followed with data | control
  · obtain ⟨anchor,there,reader⟩ := mem_flatMap.mp data
    exact mem_append_left _ (mem_flatMap.mpr ⟨anchor,there,mem_append_left _ reader⟩)
  · obtain ⟨peer,there,same⟩ := mem_map.mp control
    exact mem_append_right _ (mem_map.mpr ⟨peer,mem_of_mem_filter there,same⟩)

theorem count_pairs (pairs : List (List Node × List Node)) (v : Node) :
    (pairs.flatMap fun pair => pair.1 ++ pair.2).count v =
      (pairs.flatMap Prod.fst).count v + (pairs.flatMap Prod.snd).count v := by
  induction pairs with
  | nil => rfl
  | cons pair pairs ih =>
    simp only [flatMap_cons,count_append,ih]
    omega

theorem count_flagged (peers : List (Node × Bool)) (v : Node) :
    (peers.map Prod.fst).count v = peers.count (v,false) + peers.count (v,true) := by
  induction peers with
  | nil => rfl
  | cons peer peers ih =>
    obtain ⟨w,flag⟩ := peer
    rw [map_cons,count_cons,count_cons,count_cons,ih]
    cases flag <;> simp <;> omega

theorem count_outPeers (u v : Node) : (graph.outPeers u).count v = (graph.inPeers v).count u := by
  simp only [outPeers,inPeers,count_append,count_pairs,count_flagged,graph.dataLinks,graph.dataToControlLinks,
    graph.controlLinks,graph.controlToDataLinks]
  omega

theorem getInEdgeSize_eq (noLoopBack : ∀ node, graph.isNextIteration node = false) (node : Node) :
    graph.getInEdgeSize node = (graph.inPeers node).length := by
  have counts : ∀ (anchors : List (Option Node × List Node)) (size : Nat),
      graph.countInData anchors size = some (size + (anchors.filterMap Prod.fst ++ anchors.flatMap Prod.snd).length) := by
    intro anchors
    induction anchors with
    | nil => simp [countInData]
    | cons anchor anchors ih =>
      intro size
      obtain ⟨_ | peer,controls⟩ := anchor
      · simp only [countInData,ih,filterMap_cons,flatMap_cons,length_append]
        congr 1
        omega
      · simp only [countInData,noLoopBack peer,Bool.false_eq_true,if_false,ih]
        simp only [filterMap_cons,flatMap_cons,length_append,length_cons]
        congr 1
        omega
  simp only [getInEdgeSize,counts,inPeers,length_append]
  omega

section Counted
variable {done ready rest : List Node} {owed : Node → Nat} {counts counts' : InEdgeNum Node} {peer : Node}
  {peers : List Node}

structure Counted (done ready : List Node) (owed : Node → Nat) (counts : InEdgeNum Node) : Prop where
  total : ∀ i, ∃ count, counts i = some count ∧ count < twoPow32
  kept : Kept (fun _ => 0) done owed ⟨ready,fun i => ((counts i).getD 0 : Int)⟩

omit [DecidableEq Node] in
theorem Counted.perm (counted : Counted done ready owed counts) (shuffled : ready.Perm rest) :
    Counted done rest owed counts := by
  have all := shuffled.append_left done
  refine ⟨counted.total,all.nodup_iff.mp counted.kept.once,?_,?_⟩
  · intro i member
    exact counted.kept.settled i (all.mem_iff.mpr member)
  · intro i absent
    exact counted.kept.waiting i fun member => absent (all.mem_iff.mp member)

omit [DecidableEq Node] in
theorem Counted.congr {owed' : Node → Nat} (counted : Counted done ready owed counts) (same : ∀ i, owed' i = owed i) :
    Counted done ready owed' counts := ⟨counted.total,counted.kept.congr same⟩

theorem Counted.useEdge (counted : Counted done ready (fun i => owed i + (peer :: peers).count i) counts) :
    Counted done (if (useEdge counts peer).2 then ready ++ [peer] else ready) (fun i => owed i + peers.count i)
      (useEdge counts peer).1 := by
  obtain ⟨more,touched⟩ : 0 < owed peer + (peer :: peers).count peer ∧
      Kept (fun _ => 0) done (fun i => owed i + peers.count i)
        (touch (.fifo Node) (fun _ => 0) ⟨ready,fun i => ((counts i).getD 0 : Int)⟩ peer) := counted.kept.first
  have left := (counted.kept.waiting peer (counted.kept.unready more)).2
  obtain ⟨count,known,small⟩ := counted.total peer
  simp only [known,Option.getD_some] at left
  have positive : 0 < count := by omega
  have lower : (count + (twoPow32 - 1)) % twoPow32 = count - 1 := by
    have shift : count + (twoPow32 - 1) = count - 1 + twoPow32 := by
      simp only [twoPow32]
      omega
    rw [shift,Nat.add_mod_right,Nat.mod_eq_of_lt (by omega)]
  have values : ∀ i, ((update counts peer (some (count - 1)) i).getD 0 : Int) =
      update (fun i => ((counts i).getD 0 : Int)) peer ((count : Int) - 1) i := by
    intro i
    by_cases here : i = peer
    · subst here
      simp only [update_self,Option.getD_some]
      omega
    · simp [here]
  have total : ∀ i, ∃ count', update counts peer (some (count - 1)) i = some count' ∧ count' < twoPow32 := by
    intro i
    by_cases here : i = peer
    · subst here
      exact ⟨count - 1,by simp,by omega⟩
    · simpa [here] using counted.total i
  simp only [Sorting.useEdge,known,lower]
  refine ⟨total,?_⟩
  simp only [values]
  unfold touch at touched
  by_cases last : count - 1 = 0
  · have zero : (count : Int) - 1 = 0 := by omega
    simpa [known,last,zero,Discipline.fifo] using touched
  · have nonzero : (count : Int) - 1 ≠ 0 := by omega
    simpa [known,last,nonzero] using touched

theorem Counted.getOutNodes (counted : Counted done ready (fun i => owed i + peers.count i) counts) :
    Counted done (ready ++ (getOutNodes peers counts).2) owed (getOutNodes peers counts).1 := by
  induction peers generalizing ready counts with
  | nil => simpa [Sorting.getOutNodes] using counted
  | cons peer peers ih =>
    have run := ih counted.useEdge
    simp only [Sorting.getOutNodes]
    cases ends : (Sorting.useEdge counts peer).2 with
    | true => simpa [ends] using run
    | false => simpa [ends] using run

end Counted

namespace TopoSortStack

def items (stack : TopoSortStack Node) : List Node := if stack.usesPriority then stack.memPriorityStack else stack.normalStack

variable {stack : TopoSortStack Node}

omit [DecidableEq Node]

theorem items_priority (priority : stack.usesPriority = true) : stack.items = stack.memPriorityStack := if_pos priority

theorem items_normal (normal : stack.usesPriority = false) : stack.items = stack.normalStack := if_neg (by simp [normal])

theorem pop_none (empty : stack.pop = none) : stack.items = [] := by
  cases kind : stack.usesPriority with
  | true =>
    rw [pop,if_pos kind] at empty
    rw [items_priority kind]
    split at empty
    · assumption
    · cases empty
  | false =>
    rw [pop,if_neg (by simp [kind])] at empty
    rw [items_normal kind]
    split at empty
    · exact getLast?_eq_none_iff.mp ‹_›
    · cases empty

theorem pop_some {stack' : TopoSortStack Node} {node : Node} (taken : stack.pop = some (node,stack')) :
    stack.items.Perm (node :: stack'.items) := by
  cases kind : stack.usesPriority with
  | true =>
    rw [pop,if_pos kind] at taken
    rw [items_priority kind]
    split at taken
    · cases taken
    · rename_i shape
      cases taken
      rw [shape]
      exact List.Perm.of_eq (congrArg (node :: ·) (if_pos kind).symm)
  | false =>
    rw [pop,if_neg (by simp [kind])] at taken
    rw [items_normal kind]
    split at taken
    · cases taken
    · rename_i last
      cases taken
      obtain ⟨front,shape⟩ := getLast?_eq_some_iff.mp last
      have rest : ({ stack with normalStack := stack.normalStack.dropLast } : TopoSortStack Node).items = front :=
        (if_neg (by simpa [usesPriority] using kind)).trans (by simp [shape])
      rw [rest,shape]
      exact perm_append_singleton node front

end TopoSortStack

theorem nodeOutInfoLess_total (distinctNames : ∀ u v, graph.name u = graph.name v → u = v)
    (different : u ≠ v) : graph.nodeOutInfoLess u v = true ∨ graph.nodeOutInfoLess v u = true := by
  have names : graph.name u ≠ graph.name v := fun same => different (distinctNames u v same)
  have byName := lt_or_gt_of_ne names
  unfold nodeOutInfoLess
  split_ifs
  all_goals first | omega | exact byName.imp decide_eq_true decide_eq_true | simp

namespace TopoSortStack

variable {stack : TopoSortStack Node}

theorem push_perm (distinctNames : ∀ u v, graph.name u = graph.name v → u = v) {node : Node}
    (fresh : node ∉ stack.items) : (stack.push graph node).items.Perm (node :: stack.items) := by
  cases kind : stack.usesPriority with
  | true =>
    rw [push,if_pos kind,items_priority kind]
    rw [items_priority kind] at fresh
    refine (List.Perm.of_eq (if_pos kind)).trans (setInsert_perm ?_)
    intro other inside
    exact nodeOutInfoLess_total distinctNames fun same => fresh (same ▸ inside)
  | false =>
    have normal : ¬stack.usesPriority = true := by simp [kind]
    rw [push,if_neg normal,items_normal kind]
    split
    · exact (List.Perm.of_eq (if_neg normal)).trans (perm_append_singleton node stack.normalStack)
    · exact List.Perm.of_eq (if_neg normal)

theorem pushAll_perm (distinctNames : ∀ u v, graph.name u = graph.name v → u = v)
    {nodes : List Node} (nodup : (stack.items ++ nodes).Nodup) :
    (stack.pushAll graph nodes).items.Perm (stack.items ++ nodes) := by
  induction nodes generalizing stack with
  | nil => simp [pushAll]
  | cons node nodes ih =>
    have fresh : node ∉ stack.items := fun inside => disjoint_of_nodup_append nodup inside (.head _)
    have pushed := push_perm distinctNames fresh
    have shuffled : ((stack.push graph node).items ++ nodes).Perm (stack.items ++ node :: nodes) :=
      (pushed.append_right nodes).trans perm_middle.symm
    exact (ih (shuffled.nodup_iff.mpr nodup)).trans shuffled

end TopoSortStack
end GraphEngine.Sorting
