import GraphEngine.Isolate.Relink

/-! `ExecuteGraphUtils::IsolateNode` on fast graphs: the edge into an input goes with the first output that is mapped to it,
and the outputs that are mapped to it later find no source. -/
namespace GraphEngine.Isolate.ExecuteGraphUtils

open List LinkedGraph

open Relation (TransGen)
open Lib (Around acyclic_of_rank)

variable {Node : Type} [DecidableEq Node] {g after : LinkedGraph Node} {node : Node} {ioMap : List Int}

/-- `connected_data_in_to_out` has an entry for each key. -/
def relinkControlNodeIfNeed (g : LinkedGraph Node) (inNodes outNodes : List Node) (linked : List (Node × Node)) :
    List (Node × Node) :=
  g.control ++ ((emplaceAll g.key inNodes).flatMap fun a => outNodes.map (a,·)).filter fun p =>
    (linked.all fun link => g.key link.1 ≠ g.key p.1 || link.2 ≠ p.2) ∧ p ∉ g.control

def isolateNode (g : LinkedGraph Node) (node : Node) (ioMap : List Int) : Option (LinkedGraph Node) :=
  (relinkDataIo true g node ioMap).map fun state =>
    finish g node state (relinkControlNodeIfNeed g (g.inNodes node) (g.outNodes node) state.linked)

/-- The control edges are the old ones and those that join what is not linked yet. -/
theorem mem_relinkControlNodeIfNeed {state : Relinked Node} (rewired : Rewired true g node ioMap state) {a x : Node} :
    (a,x) ∈ state.linked ∨ (a,x) ∈ relinkControlNodeIfNeed g (g.inNodes node) (g.outNodes node) state.linked ↔
      (a,x) ∈ g.control ∨ Joins true g node ioMap a x := by
  have moved : ∀ b, (b,x) ∈ state.linked ↔ Moved true g node ioMap b x := fun b => rewired.linked b x
  have none : (state.linked.all fun link => g.key link.1 ≠ g.key a || link.2 ≠ x) = true ↔
      ∀ b, g.key b = g.key a → ¬Moved true g node ioMap b x := by
    simp only [← moved,all_eq_true,Prod.forall]
    grind
  rw [relinkControlNodeIfNeed,mem_append,mem_filter,mem_pairs,moved,Joins]
  simp only [decide_eq_true_eq,none]
  grind

/-- No reader's output is mapped to an input with a source to which an earlier output is mapped as well. -/
def NoSharedInput (g : LinkedGraph Node) (node : Node) (ioMap : List Int) : Prop :=
  ∀ source ∈ g.data, source.dst = node → ∀ reader ∈ g.data, reader.src = node →
    inIndex ioMap reader.srcOutput = source.dstInput → ∀ i < reader.srcOutput, inIndex ioMap i ≠ source.dstInput

omit [DecidableEq Node] in
theorem noSharedInput_iff : (∀ source reader, Moves false g node ioMap source reader → Moves true g node ioMap source reader) ↔
    NoSharedInput g node ioMap := by
  constructor
  · intro all source sIn sDst reader rIn rSrc mapped
    exact (all source reader ⟨⟨sIn,sDst⟩,⟨rIn,rSrc⟩,mapped,nofun⟩).first rfl
  · intro apart source reader moves
    exact { moves with first := fun _ => apart source moves.into.1 moves.into.2 reader moves.outOf.1 moves.outOf.2 moves.mapped }

/-- Nothing is lost if and only if no input is shared by outputs that are read and all that was ordered by the node is joined, or
is ordered by a way around it. -/
theorem isolateNode_lossless_iff (wellFormed : g.WellFormed) (ok : isolateNode g node ioMap = some after) :
    KeepsMeaning g after node ioMap (· ≠ node) ↔
      NoSharedInput g node ioMap ∧ StaysLinked (Joins true g node ioMap) g node := by
  obtain ⟨state,relinked,rfl⟩ := Option.map_eq_some_iff.mp ok
  have rewired := relinkDataIo_rewired wellFormed relinked
  have edges : ∀ u v, (finish g node state (relinkControlNodeIfNeed g (g.inNodes node) (g.outNodes node) state.linked)).Edge u v ↔
      Around g.Edge node u v ∨ Joins true g node ioMap u v := by
    intro u v
    have away : Joins true g node ioMap u v → u ≠ node ∧ v ≠ node := fun joins =>
      ⟨wellFormed.away (.inl joins.ends.1),wellFormed.away (.inr joins.ends.2)⟩
    have known := @mem_relinkControlNodeIfNeed _ _ _ _ _ _ rewired u v
    rw [rewired.edge_finish,Around,LinkedGraph.Edge]
    grind
  rw [rewired.keeps_iff wellFormed (fun _ => id) (fun _ => wellFormed.away) (fun _ _ => Joins.ends) fun a x _ _ => ?_,
    noSharedInput_iff]
  exact iff_of_eq (congrArg (TransGen · a x) (funext₂ fun u v => propext (edges u v)))

inductive ForkNode | node | source | first | second
  deriving DecidableEq

instance : Fintype ForkNode := ⟨{.node,.source,.first,.second},fun v => by cases v <;> decide⟩

def fork : LinkedGraph ForkNode where
  data := [⟨.source,0,.node,0⟩,⟨.node,0,.first,0⟩,⟨.node,1,.second,0⟩]
  control := []
  mixed := []
  dataInNum _ := 1
  dataOutNum _ := 2
  key
    | .node => ("n","g")
    | .source => ("a","g")
    | .first => ("x","g")
    | .second => ("y","g")

theorem fork_wellFormed : fork.WellFormed :=
  ⟨by decide,acyclic_of_rank (fun | .source => 0 | .node => 1 | _ => 2) (by unfold LinkedGraph.Edge; decide)⟩

theorem fork_staysLinked : StaysLinked (Joins true fork .node [0]) fork .node := by
  have keys : ∀ b a, fork.key b = fork.key a → b = a := by decide
  have into : ∀ a, fork.Edge a .node → a ∈ fork.inNodes .node := by
    unfold LinkedGraph.Edge
    decide
  have out : ∀ x, fork.Edge .node x → x ∈ fork.outNodes .node := by
    unfold LinkedGraph.Edge
    decide
  intro a x before behind
  exact .inr ⟨a,x,joins_of_distinct (fun b _ => keys b a) (into a before) (out x behind),.refl,.refl⟩

theorem isolateNode_fork_first :
    ∃ after, isolateNode fork .node [0] = some after ∧ KeepsMeaning fork after .node [0] (· ≠ .node) :=
  ⟨_,rfl,(isolateNode_lossless_iff fork_wellFormed rfl).mpr ⟨by unfold NoSharedInput; decide,fork_staysLinked⟩⟩

/-- With both outputs mapped to the one input, the second consumer has no source any more. -/
theorem isolateNode_fork_both :
    fork.WellFormed ∧ ∃ after, isolateNode fork .node [0,0] = some after ∧ ¬ KeepsMeaning fork after .node [0,0] (· ≠ .node) := by
  refine ⟨fork_wellFormed,_,rfl,fun keeps => ?_⟩
  have moves : Moves false fork .node [0,0] ⟨.source,0,.node,0⟩ ⟨.node,1,.second,0⟩ := ⟨by decide,by decide,rfl,nofun⟩
  have lost := (keeps.data ⟨.source,0,.second,0⟩).mpr (.inr ⟨_,_,moves,rfl⟩)
  revert lost
  decide

end GraphEngine.Isolate.ExecuteGraphUtils
