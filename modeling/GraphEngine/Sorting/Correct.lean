import GraphEngine.Lib.AddedEdges
import GraphEngine.Sorting.ReverseWalk
import GraphEngine.Sorting.Delay

/-! Every mode of topological sorting gives a linear extension with the positions as ids, on every acyclic graph in
which no node has more edges into it than a 32-bit number can count. Edges between a data anchor and a control anchor are
kept by counting alone; elsewhere the other edges must imply them. -/

namespace GraphEngine.Sorting
open Lib Relation Function List
variable {Node : Type} [DecidableEq Node]

theorem LinearExtension.implied {graph : ComputeGraph Node} {order : List Node} (unmixed : Unmixed graph)
    (extension : LinearExtension graph graph.outAllNodes order) : LinearExtension graph graph.outPeers order := by
  have nodup := extension.perm.nodup_iff.mpr graph.nodup
  refine ⟨extension.perm,fun u v edge => ?_⟩
  have path := unmixed u v edge
  clear edge
  induction path with
  | single followed => exact extension.forward _ _ followed
  | tail _ followed ih => exact ih.trans (extension.forward _ _ followed) nodup

theorem LinearExtension.followed {graph : ComputeGraph Node} {order : List Node}
    (extension : LinearExtension graph graph.outPeers order) : LinearExtension graph graph.outAllNodes order :=
  ⟨extension.perm,fun u v followed => extension.forward u v (ComputeGraph.Followed.edge followed)⟩

/-- The modes that count edges also follow the links between a data anchor and a control anchor. -/
def TopoSortingMode.counts (mode : TopoSortingMode) : Prop := mode = .kBFS ∨ mode = .kDFS

theorem sortByMode_extends {graph : ComputeGraph Node} (sortable : Sortable graph) (mode : TopoSortingMode)
    (isMemPriority dfsReverse : Bool) (ids : Node → Nat) (followed : mode.counts ∨ Unmixed graph) :
    ∃ order newIds bound, LinearExtension graph graph.outPeers order ∧
      ∀ fuel, bound ≤ fuel → sortByMode graph mode isMemPriority dfsReverse ids fuel = some (order,newIds) := by
  have : Fintype Node := graph.fintype
  cases mode with
  | kBFS =>
    obtain ⟨order,bound,taken,all,result⟩ := bfsTopologicalSorting_ends isMemPriority sortable.plain
    have extension : LinearExtension graph graph.outPeers order := taken.extension (all sortable.acyclic)
    refine ⟨order,if isMemPriority then setIds graph.nodes ids else ids,bound,extension,?_⟩
    intro fuel enough
    rw [sortByMode,result fuel enough]
    rfl
  | kDFS =>
    obtain ⟨order,bound,taken,all,result⟩ := dfsTopologicalSorting_ends isMemPriority dfsReverse sortable.plain
    have extension : LinearExtension graph graph.outPeers order := taken.extension (all sortable.acyclic)
    refine ⟨order,if isMemPriority then setIds graph.nodes ids else ids,bound,extension,?_⟩
    intro fuel enough
    rw [sortByMode,result fuel enough]
    rfl
  | kRDFS =>
    have unmixed := followed.resolve_left (by simp [TopoSortingMode.counts])
    obtain ⟨order,bound,extension,result⟩ := rdfsTopologicalSorting_extends sortable unmixed
    refine ⟨order,setIds graph.nodes ids,bound,extension.implied unmixed,?_⟩
    intro fuel enough
    rw [sortByMode,result fuel enough]
    rfl
  | kStableRDFS =>
    have unmixed := followed.resolve_left (by simp [TopoSortingMode.counts])
    have distinct : ∀ u v, setIds graph.nodes ids u = setIds graph.nodes ids v → u = v := setIds_inj graph.nodup graph.all
    obtain ⟨order,bound,extension,result⟩ := stableRdfsTopologicalSorting_extends sortable distinct
    refine ⟨order,setIds graph.nodes ids,bound,extension.implied unmixed,?_⟩
    intro fuel enough
    rw [sortByMode,result fuel enough]
    rfl

/-- The sorting succeeds; the new node list is a linear extension, and the ids are the positions. Where nodes are walked against
the edges or are delayed, links between a data anchor and a control anchor must be implied by the other edges. -/
theorem doTopologicalSorting_correct (graph : ComputeGraph Node) (sortable : Sortable graph) (mode : TopoSortingMode)
    (isMemPriority dfsReverse : Bool) (ids : Node → Nat) (followed : mode.counts ∧ isMemPriority = false ∨ Unmixed graph) :
    ∃ order newIds bound,
      (∀ fuel, bound ≤ fuel → doTopologicalSorting graph mode isMemPriority dfsReverse ids fuel = some (.ok (order,newIds))) ∧
      order.Perm graph.nodes ∧ (∀ u v, graph.Edge u v → Precedes order u v) ∧
      ∀ i node, order[i]? = some node → newIds node = i := by
  obtain ⟨sorted,sortedIds,bound,extension,result⟩ :=
    sortByMode_extends sortable mode isMemPriority dfsReverse ids (followed.imp_left And.left)
  let final : List Node × (Node → Nat) :=
    if (isMemPriority ∧ mode ≠ .kStableRDFS) ∨ mode = .kRDFS then delayTopoSort graph sortedIds sorted else (sorted,sortedIds)
  have delayed : LinearExtension graph graph.outPeers final.1 := by
    simp only [final]
    split
    · rename_i delays
      have unmixed : Unmixed graph := by
        refine followed.resolve_left fun plain => ?_
        rcases delays with ⟨priority,-⟩ | rfl
        · simp [plain.2] at priority
        · simp [TopoSortingMode.counts] at plain
      exact (delayTopoSort_extends extension.followed sortedIds).implied unmixed
    · exact extension
  refine ⟨final.1,setIds final.1 final.2,bound,?_,delayed.perm,delayed.forward,?_⟩
  · intro fuel enough
    have size : ¬sorted.length ≠ graph.nodes.length := by simp [extension.perm.length_eq]
    simp only [doTopologicalSorting,result fuel enough,Option.bind_eq_bind,Option.bind_some,if_neg size]
    rfl
  · intro i node atI
    exact setIds_eq (delayed.perm.nodup_iff.mpr graph.nodup) atI

inductive Vertex | a | b | c
  deriving DecidableEq

instance : Fintype Vertex := ⟨{.a,.b,.c},fun node => by cases node <;> decide⟩

/-- Three nodes in a row, listed backwards, with a second edge from the first to the last one and a link from its data output
to the control input. -/
def rowGraph : ComputeGraph Vertex where
  nodes := [.c,.b,.a]
  name node := match node with
    | .a => "a"
    | .b => "b"
    | .c => "c"
  isDataType node := node == .a
  isNextIteration _ := false
  isConst node := node == .a
  isVariable _ := false
  isIoData _ := false
  outputSizes _ := [512]
  inDataAnchors node := if node = .a then [] else [(some .a,[])]
  inControl node := if node = .c then [.b] else []
  inDataToControl node := if node = .c then [.a] else []
  outDataAnchors node := if node = .a then [([.b,.c],[.c])] else []
  outControl node := if node = .b then [(.c,false)] else []
  inputsOrder := []
  nodup := by decide
  all := by decide
  dataLinks := by decide
  dataToControlLinks := by decide
  controlLinks := by decide
  controlToDataLinks := by decide

theorem rowGraph_sortable : Sortable rowGraph := by
  refine ⟨?_,fun _ => rfl,by decide,by decide⟩
  refine acyclic_of_rank (fun | .a => 0 | .b => 1 | .c => 2) ?_
  unfold ComputeGraph.Edge
  decide

theorem rowGraph_unmixed : Unmixed rowGraph := by
  have direct : ∀ u v, rowGraph.Edge u v → rowGraph.Followed u v := by
    unfold ComputeGraph.Edge ComputeGraph.Followed
    decide
  exact fun u v edge => .single (direct u v edge)

theorem rowGraph_sorted : ∃ order newIds bound,
    (∀ fuel, bound ≤ fuel → doTopologicalSorting rowGraph .kRDFS true false (fun _ => 0) fuel = some (.ok (order,newIds))) ∧
    order.Perm rowGraph.nodes ∧ (∀ u v, rowGraph.Edge u v → Precedes order u v) ∧
    ∀ i node, order[i]? = some node → newIds node = i :=
  doTopologicalSorting_correct rowGraph rowGraph_sortable .kRDFS true false (fun _ => 0) (.inr rowGraph_unmixed)

section ManyEdges

def parallelGraph (edges : Nat) : ComputeGraph Bool where
  nodes := [false,true]
  name node := if node then "b" else "a"
  isDataType _ := false
  isNextIteration _ := false
  isConst _ := false
  isVariable _ := false
  isIoData _ := false
  outputSizes _ := []
  inDataAnchors _ := []
  inControl node := if node then List.replicate edges false else []
  inDataToControl _ := []
  outDataAnchors _ := []
  outControl node := if node then [] else List.replicate edges (true,false)
  inputsOrder := []
  nodup := by decide
  all := by decide
  dataLinks _ _ := rfl
  dataToControlLinks _ _ := rfl
  controlLinks u v := by cases u <;> cases v <;> simp [List.count_replicate]
  controlToDataLinks u v := by cases u <;> simp [List.count_replicate]

theorem getOutNodes_append (xs ys : List Node) (counts : InEdgeNum Node) : getOutNodes (xs ++ ys) counts =
      ((getOutNodes ys (getOutNodes xs counts).1).1,(getOutNodes xs counts).2 ++
        (getOutNodes ys (getOutNodes xs counts).1).2) := by
  induction xs generalizing counts with
  | nil => rfl
  | cons x xs ih =>
    simp only [cons_append,getOutNodes,ih]
    split
    · rfl
    · rfl

theorem getOutNodes_replicate (node : Node) (n count : Nat) (counts : InEdgeNum Node) (known : counts node = some count)
    (less : n < count) (small : count < twoPow32) : (getOutNodes (replicate n node) counts).2 = [] ∧
      (getOutNodes (replicate n node) counts).1 = update counts node (some (count - n)) := by
  induction n generalizing count counts with
  | zero =>
    refine ⟨rfl,?_⟩
    rw [Nat.sub_zero,← known]
    exact (update_eq_self node counts).symm
  | succ n ih =>
    have lower : (count + (twoPow32 - 1)) % twoPow32 = count - 1 := by
      rw [show count + (twoPow32 - 1) = count - 1 + twoPow32 by omega,Nat.add_mod_right,Nat.mod_eq_of_lt (by omega)]
    obtain ⟨nothing,rest⟩ := ih (count - 1) (update counts node (some (count - 1))) (by simp) (by omega) (by omega)
    rw [replicate_succ]
    simp only [getOutNodes,useEdge,known,lower,nothing,rest]
    refine ⟨?_,?_⟩
    · rw [if_neg (by simp; omega)]
    · rw [update_idem,show count - 1 - n = count - (n + 1) by omega]

theorem getOutNodes_around (node : Node) (edges : Nat) (full : edges = twoPow32) (counts : InEdgeNum Node)
    (known : counts node = some 0) : getOutNodes (replicate edges node) counts = (counts,[node]) := by
  have value : twoPow32 = 4294967296 := rfl
  have parts : replicate edges node = [node] ++ (replicate (edges - 2) node ++ [node]) := by
    symm
    apply eq_replicate_iff.mpr
    refine ⟨?_,?_⟩
    · simp only [length_append,length_singleton,length_replicate]
      omega
    · intro other inside
      simp only [mem_append,mem_singleton,mem_replicate] at inside
      tauto
  have down : (0 + (twoPow32 - 1)) % twoPow32 = edges - 1 := by
    rw [zero_add,Nat.mod_eq_of_lt (by omega),full]
  have last : (edges - 1 - (edges - 2) + (twoPow32 - 1)) % twoPow32 = 0 := by
    rw [show edges - 1 - (edges - 2) + (twoPow32 - 1) = twoPow32 by omega,Nat.mod_self]
  have more : edges - 1 ≠ 0 := by omega
  have first : getOutNodes [node] counts = (update counts node (some (edges - 1)),[]) := by
    simp only [getOutNodes,useEdge,known,down,beq_iff_eq,more,if_false]
  obtain ⟨nothing,middle⟩ := getOutNodes_replicate node (edges - 2) (edges - 1)
    (update counts node (some (edges - 1))) (by simp) (by omega) (by omega)
  have back : update counts node (some 0) = counts := by rw [← known,update_eq_self]
  rw [parts,getOutNodes_append,getOutNodes_append,first]
  simp only [nothing,middle,getOutNodes,useEdge,update_self,last,update_idem,back]
  rfl

variable {edges : Nat} (full : edges = twoPow32)
include full

theorem parallelGraph_sources : sortNodes (parallelGraph edges) = ([true,false],fun _ => some 0) := by
  have noneIn : (parallelGraph edges).getInEdgeSize false % twoPow32 = 0 := rfl
  have allIn : (parallelGraph edges).getInEdgeSize true % twoPow32 = 0 := by
    simp [ComputeGraph.getInEdgeSize,parallelGraph,ComputeGraph.countInData,full]
  have sources : (parallelGraph edges).nodes.foldl (sortNode (parallelGraph edges)) ⟨[],0,fun _ => none⟩ =
      ⟨[true,false],2,fun _ => some 0⟩ := by
    change sortNode (parallelGraph edges) (sortNode (parallelGraph edges) ⟨[],0,fun _ => none⟩ false) true = _
    simp only [sortNode,noneIn,allIn,if_true]
    change (⟨[true,false],2,_⟩ : Sources Bool) = _
    congr
    funext node
    cases node
    · rfl
    · rfl
  rw [sortNodes,sources]
  rfl

theorem parallelGraph_dfs : dfsTopologicalSorting (parallelGraph edges) false false 4 = some [false,true,true] := by
  have around := getOutNodes_around true edges full (fun _ => some 0) rfl
  have first : dfsStep (parallelGraph edges) false ⟨⟨false,true,false,[true,false],[]⟩,fun _ => some 0,[]⟩ =
      some ⟨⟨false,true,false,[true,true],[]⟩,fun _ => some 0,[false]⟩ := by
    change some (pushAnchor (parallelGraph edges) false ⟨⟨false,true,false,[true],[]⟩,fun _ => some 0,[false]⟩
      ((replicate edges (true,false)).map Prod.fst)) = _
    simp only [map_replicate,pushAnchor,around]
    rfl
  simp only [dfsTopologicalSorting,parallelGraph_sources full]
  change (whileLoop (dfsStep (parallelGraph edges) false) 4
    ⟨⟨false,true,false,[true,false],[]⟩,fun _ => some 0,[]⟩).bind _ = _
  simp only [whileLoop,first]
  rfl

omit full
theorem parallelGraph_edge {u v : Bool} (edge : (parallelGraph edges).Edge u v) : u = false ∧ v = true := by
  cases u with
  | true => cases edge
  | false =>
    change v ∈ (replicate edges (true,false)).map Prod.fst at edge
    rw [map_replicate] at edge
    exact ⟨rfl,(mem_replicate.mp edge).2⟩

theorem parallelGraph_acyclic : Acyclic (parallelGraph edges).Edge := by
  refine acyclic_of_rank Bool.toNat fun u v edge => ?_
  obtain ⟨rfl,rfl⟩ := parallelGraph_edge edge
  exact Nat.one_pos

/-- A number of edges that is zero as a 32-bit number: the nodes taken are more than the graph has. -/
theorem parallelGraph_fails :
    Acyclic (parallelGraph twoPow32).Edge ∧ (∀ node, (parallelGraph twoPow32).isNextIteration node = false) ∧
      (∀ u v, (parallelGraph twoPow32).name u = (parallelGraph twoPow32).name v → u = v) ∧
      doTopologicalSorting (parallelGraph twoPow32) .kDFS false false (fun _ => 0) 4 = some (.error .graphFailed) := by
  have sorted : dfsTopologicalSorting (parallelGraph twoPow32) false false 4 = some [false,true,true] :=
    parallelGraph_dfs rfl
  have nodes : (parallelGraph twoPow32).nodes = [false,true] := rfl
  have names : ∀ u v : Bool, (if u then "b" else "a") = (if v then "b" else "a") → u = v := by decide
  refine ⟨parallelGraph_acyclic,fun _ => rfl,names,?_⟩
  simp only [doTopologicalSorting,sortByMode,sorted,nodes]
  rfl

end ManyEdges
end GraphEngine.Sorting
