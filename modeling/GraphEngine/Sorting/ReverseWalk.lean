import GraphEngine.Sorting.CountingModes

/-! The two modes that walk against the edges. Entering a node pushes its inputs; when the node is on top again they
are all walked, and it is put out. -/

namespace GraphEngine.Sorting
open Lib Lib.Countdown Relation Function List ComputeGraph
variable {Node : Type} [DecidableEq Node] {graph : ComputeGraph Node} {inputs : InputOrder Node}

section
variable (graph : ComputeGraph Node) (inputs : InputOrder Node)

structure Settled (status : Node → WalkStatus) (nodeVec : List Node) : Prop where
  walked : ∀ i, status i = .kWalked ↔ i ∈ nodeVec
  nodup : nodeVec.Nodup
  sequenced : Sequenced graph.outAllNodes nodeVec.reverse

structure Pushes : Prop where
  sound : ∀ status current, ∀ input ∈ inputs status current, graph.Followed input current
  complete : ∀ status current input, graph.Followed input current → status input = .kNotWalked → input ∈ inputs status current

structure Walks (top rest : List Node) (status status' : Node → WalkStatus) (nodeVec nodeVec' : List Node) : Prop where
  steps : Steps (walkStep inputs) ⟨status,top ++ rest,nodeVec⟩ ⟨status',rest,nodeVec'⟩
  settled : Settled graph status' nodeVec'
  reached : ∀ i ∈ top, i ∈ nodeVec'
  grows : ∀ i ∈ nodeVec, i ∈ nodeVec'
  walking : ∀ i, status' i = .kWalking ↔ status i = .kWalking

def Walkable (node : Node) : Prop :=
  ∀ status nodeVec rest, Settled graph status nodeVec → (∀ i, status i = .kWalking → ¬ReflTransGen graph.Followed i node) →
    ∃ status' nodeVec', Walks graph inputs [node] rest status status' nodeVec nodeVec'

end

variable {status : Node → WalkStatus} {nodeVec : List Node} {node : Node} {state : WalkState Node} {ids : Node → Nat}

theorem walkable_list {top : List Node} (each : ∀ node ∈ top, Walkable graph inputs node) (rest : List Node)
    (settled : Settled graph status nodeVec)
    (free : ∀ i, status i = .kWalking → ∀ node ∈ top, ¬ReflTransGen graph.Followed i node) :
    ∃ status' nodeVec', Walks graph inputs top rest status status' nodeVec nodeVec' := by
  induction top generalizing status nodeVec with
  | nil => exact ⟨status,nodeVec,.refl,settled,by simp,fun _ known => known,fun _ => .rfl⟩
  | cons node top ih =>
    obtain ⟨status₁,nodeVec₁,first⟩ := each node (.head _) status nodeVec (top ++ rest) settled
      (fun i walking => free i walking node (.head _))
    obtain ⟨status₂,nodeVec₂,second⟩ := ih (fun other inside => each other (.tail _ inside)) first.settled
      (fun i walking other inside => free i ((first.walking i).mp walking) other (.tail _ inside))
    refine ⟨status₂,nodeVec₂,first.steps.trans second.steps,second.settled,?_,?_,?_⟩
    · exact forall_mem_cons.mpr ⟨second.grows _ (first.reached _ (.head _)),second.reached⟩
    · intro i known
      exact second.grows i (first.grows i known)
    · intro i
      exact (second.walking i).trans (first.walking i)

theorem Settled.finish (settled : Settled graph status nodeVec) (walking : status node = .kWalking)
    (sources : ∀ input, graph.Followed input node → input ∈ nodeVec) :
    Settled graph (update status node .kWalked) (nodeVec ++ [node]) := by
  have fresh : node ∉ nodeVec := by
    intro known
    rw [(settled.walked node).mpr known] at walking
    cases walking
  refine ⟨?_,?_,?_⟩
  · intro i
    rw [mem_append,mem_singleton]
    by_cases here : i = node
    · simp [here]
    · rw [update_of_ne here,settled.walked]
      simp [here]
  · rw [nodup_append_comm]
    exact nodup_cons.mpr ⟨fresh,settled.nodup⟩
  · rw [reverse_append]
    refine ⟨?_,settled.sequenced⟩
    intro source edge
    exact mem_reverse.mpr (sources source edge)

theorem walkable (pushes : Pushes graph inputs) (acyclic : Acyclic graph.Followed) (node : Node) :
    Walkable graph inputs node := by
  have : Fintype Node := graph.fintype
  induction node using acyclic.wellFounded.induction with
  | _ node ih =>
    intro status nodeVec rest settled free
    cases kind : status node with
    | kWalking => exact absurd .refl (free node kind)
    | kWalked =>
      refine ⟨status,nodeVec,.single ?_,settled,?_,fun _ known => known,fun _ => .rfl⟩
      · simp [walkStep,kind]
      · intro i inside
        rw [mem_singleton.mp inside]
        exact (settled.walked node).mp kind
    | kNotWalked =>
      let entered := update status node .kWalking
      have other : ∀ i, i ≠ node → entered i = status i := fun i away => update_of_ne away _ _
      have here : entered node = .kWalking := update_self _ _ _
      have same : Settled graph entered nodeVec := by
        refine ⟨?_,settled.nodup,settled.sequenced⟩
        intro i
        by_cases isNode : i = node
        · rw [isNode,here,← settled.walked,kind]
          simp
        · rw [other i isNode,settled.walked]
      have onTheWay : ∀ i, entered i = .kWalking → ∀ input ∈ inputs entered node, ¬ReflTransGen graph.Followed i input := by
        intro i walking input inside path
        have edge := pushes.sound entered node input inside
        by_cases isNode : i = node
        · exact acyclic node (TransGen.tail' (isNode ▸ path) edge)
        · rw [other i isNode] at walking
          exact free i walking (path.tail edge)
      obtain ⟨status',nodeVec',walks⟩ := walkable_list
        (fun input inside => ih input (.single (pushes.sound entered node input inside))) (node :: rest) same onTheWay
      have stillWalking : status' node = .kWalking := (walks.walking node).mpr here
      have sources : ∀ input, graph.Followed input node → input ∈ nodeVec' := by
        intro input edge
        cases input_status : entered input with
        | kNotWalked => exact walks.reached input (pushes.complete entered node input edge input_status)
        | kWalked => exact walks.grows input ((same.walked input).mp input_status)
        | kWalking =>
          -- an input that is being walked would close a cycle
          by_cases isNode : input = node
          · exact absurd (TransGen.single (isNode ▸ edge)) (acyclic node)
          · rw [other input isNode] at input_status
            exact absurd (.single edge) (free input input_status)
      have enter : Steps (walkStep inputs) ⟨status,[node] ++ rest,nodeVec⟩
          ⟨entered,inputs entered node ++ node :: rest,nodeVec⟩ := by
        apply ReflTransGen.single
        simp [walkStep,kind,entered]
      have leave : Steps (walkStep inputs) ⟨status',node :: rest,nodeVec'⟩
          ⟨update status' node .kWalked,rest,nodeVec' ++ [node]⟩ := by
        apply ReflTransGen.single
        simp [walkStep,stillWalking]
      refine ⟨_,_,enter.trans (walks.steps.trans leave),walks.settled.finish stillWalking sources,?_,?_,?_⟩
      · intro i inside
        rw [mem_singleton.mp inside]
        simp
      · intro i known
        exact mem_append_left _ (walks.grows i known)
      · intro i
        by_cases isNode : i = node
        · rw [isNode,update_self,kind]
          simp
        · rw [update_of_ne isNode,walks.walking,other i isNode]

structure Resting (graph : ComputeGraph Node) (state : WalkState Node) : Prop where
  settled : Settled graph state.status state.nodeVec
  still : ∀ i, state.status i ≠ .kWalking

variable {skips : (Node → WalkStatus) → Node → Bool}

theorem walkFrom_rests (pushes : Pushes graph inputs) (acyclic : Acyclic graph.Followed)
    (resting : Resting graph state) : ∃ final bound, (∀ fuel, bound ≤ fuel → walkFrom inputs skips fuel state node = some final) ∧
      Resting graph final ∧ (∀ i ∈ state.nodeVec, i ∈ final.nodeVec) ∧
      (skips state.status node = false → node ∈ final.nodeVec) := by
  cases skip : skips state.status node with
  | true =>
    refine ⟨state,0,?_,resting,fun _ known => known,by simp⟩
    intro fuel _
    rw [walkFrom,if_pos skip]
  | false =>
    obtain ⟨status,nodeVec,walks⟩ := walkable pushes acyclic node state.status state.nodeVec [] resting.settled
      (fun i walking => absurd walking (resting.still i))
    have ends : Ends (walkStep inputs) { state with stack := [node] } ⟨status,[],nodeVec⟩ := ⟨walks.steps,rfl⟩
    obtain ⟨bound,result⟩ := ends.result
    refine ⟨⟨status,[],nodeVec⟩,bound,?_,⟨walks.settled,?_⟩,walks.grows,fun _ => walks.reached node (by simp)⟩
    · intro fuel enough
      rw [walkFrom,if_neg (by simp [skip]),result fuel enough]
    · intro i walking
      exact resting.still i ((walks.walking i).mp walking)

theorem walkFrom_all {Rest : WalkState Node → Prop}
    (walked : ∀ state, Rest state → ∀ i, state.status i = .kWalked → i ∈ state.nodeVec)
    (one : ∀ state node, Rest state → ∃ final bound, (∀ fuel, bound ≤ fuel → walkFrom inputs skips fuel state node = some final) ∧
      Rest final ∧ (∀ i ∈ state.nodeVec, i ∈ final.nodeVec) ∧ (skips state.status node = false → node ∈ final.nodeVec))
    (nodes : List Node) (rests : Rest state) :
    ∃ final bound, (∀ fuel, bound ≤ fuel → nodes.foldlM (walkFrom inputs skips fuel) state = some final) ∧
      Rest final ∧ (∀ i ∈ state.nodeVec, i ∈ final.nodeVec) ∧
      ∀ node ∈ nodes, node ∈ final.nodeVec ∨
        ∃ status, skips status node = true ∧ ∀ i, status i = .kWalked → i ∈ final.nodeVec := by
  induction nodes generalizing state with
  | nil => exact ⟨state,0,fun _ _ => rfl,rests,fun _ known => known,by simp⟩
  | cons node nodes ih =>
    obtain ⟨middle,bound₁,first,restsMiddle,grows₁,started⟩ := one state node rests
    obtain ⟨final,bound₂,second,restsFinal,grows₂,visited⟩ := ih restsMiddle
    refine ⟨final,max bound₁ bound₂,?_,restsFinal,fun i known => grows₂ i (grows₁ i known),?_⟩
    · intro fuel enough
      rw [foldlM_cons,first fuel (le_trans (le_max_left _ _) enough)]
      exact second fuel (le_trans (le_max_right _ _) enough)
    · intro other inside
      rcases mem_cons.mp inside with same | later
      · subst same
        cases skip : skips state.status other with
        | false => exact .inl (grows₂ other (started skip))
        | true =>
          refine .inr ⟨state.status,skip,?_⟩
          intro i isWalked
          exact grows₂ i (grows₁ i (walked state rests i isWalked))
      · exact visited other later

theorem walkAll_extends (pushes : Pushes graph inputs) (acyclic : Acyclic graph.Followed)
    (covers : ∀ final : List Node, (∀ source node, graph.Followed source node → node ∈ final → source ∈ final) →
      (∀ node, node ∈ final ∨ ∃ status, skips status node = true ∧ ∀ i, status i = .kWalked → i ∈ final) →
      ∀ node, node ∈ final) :
    ∃ order bound, LinearExtension graph graph.outAllNodes order ∧ ∀ fuel, bound ≤ fuel →
      walkAll graph inputs skips fuel = some order := by
  have start : Resting graph ⟨fun _ => .kNotWalked,[],[]⟩ := by
    refine ⟨⟨?_,.nil,trivial⟩,?_⟩
    · intro i
      simp
    · intro i walking
      cases walking
  obtain ⟨final,bound,result,resting,-,visited⟩ := walkFrom_all
    (fun state resting i => (resting.settled.walked i).mp) (fun state node => walkFrom_rests pushes acyclic) graph.nodes start
  have closed : ∀ source node, graph.Followed source node → node ∈ final.nodeVec → source ∈ final.nodeVec := by
    intro source node edge known
    obtain ⟨newer,older,split⟩ := append_of_mem (mem_reverse.mpr known)
    have sequenced := resting.settled.sequenced
    rw [split] at sequenced
    have before := sequenced.before edge
    rw [← mem_reverse,split]
    simp [before]
  have all := covers final.nodeVec closed fun node => visited node (graph.all node)
  refine ⟨final.nodeVec,bound,?_,?_⟩
  · exact Taken.extension ⟨resting.settled.nodup,resting.settled.sequenced⟩ all
  · intro fuel enough
    simp only [walkAll,result fuel enough]
    rfl

theorem nodeCmp_total (distinctNames : ∀ u v, graph.name u = graph.name v → u = v) {u v : Node} (different : u ≠ v) :
    graph.nodeCmp u v = true ∨ graph.nodeCmp v u = true := by
  have byName := names_comparable distinctNames different
  unfold nodeCmp
  split_ifs
  · exact byName.symm
  · omega
  · omega
  · have sizes : graph.getNodeOutputRealSize u ≠ graph.getNodeOutputRealSize v := by assumption
    exact (lt_or_gt_of_ne sizes.symm).imp decide_eq_true decide_eq_true

theorem rdfsInputs_pushes (distinctNames : ∀ u v, graph.name u = graph.name v → u = v) : Pushes graph (rdfsInputs graph) := by
  constructor
  · intro status current input inside
    exact mem_inAllNodes.mp (mem_of_mem_setOf (mem_reverse.mp inside))
  · intro status current input edge _
    apply mem_reverse.mpr
    apply (mem_setOf fun u _ v _ different => nodeCmp_total distinctNames different).mpr
    exact mem_inAllNodes.mpr edge

theorem Sortable.followed (sortable : Sortable graph) : Acyclic graph.Followed :=
  fun node around => sortable.acyclic node (TransGen.mono (fun _ _ => ComputeGraph.Followed.edge) _ _ around)

/-- Every edge joins nodes that edges between two data anchors or two control anchors join. -/
def Unmixed (graph : ComputeGraph Node) : Prop := ∀ u v, graph.Edge u v → TransGen graph.Followed u v

theorem rdfsTopologicalSorting_extends (sortable : Sortable graph) (unmixed : Unmixed graph) :
    ∃ order bound, LinearExtension graph graph.outAllNodes order ∧ ∀ fuel, bound ≤ fuel →
      rdfsTopologicalSorting graph fuel = some order := by
  apply walkAll_extends (rdfsInputs_pushes sortable.distinctNames) sortable.followed
  intro final closed visited node
  have : Fintype Node := graph.fintype
  -- a node with outputs is an input of one that was reached
  induction node using sortable.followed.swap.wellFounded.induction with
  | _ node ih =>
    rcases visited node with known | ⟨status,skip,-⟩
    · exact known
    · have outputs : graph.outPeers node ≠ [] := by
        intro empty
        obtain ⟨data,control⟩ := append_eq_nil_iff.mp empty
        have readers : (graph.outDataAnchors node).flatMap Prod.fst = [] := by
          rw [flatMap_eq_nil_iff] at data ⊢
          exact fun anchor there => (append_eq_nil_iff.mp (data anchor there)).1
        simp [getOutNodesSize,getOutDataNodesSize,readers,map_eq_nil_iff.mp control] at skip
      obtain ⟨next,inside⟩ := exists_mem_of_ne_nil _ outputs
      obtain ⟨first,step,-⟩ := TransGen.head'_iff.mp (unmixed node next inside)
      exact closed node first step (ih first (.single step))

theorem stableInputs_pushes (distinct : ∀ u v, ids u = ids v → u = v) : Pushes graph (stableInputs graph ids) := by
  constructor
  · intro status current input inside
    have filtered := mem_of_mem_setOf (mem_reverse.mp inside)
    exact mem_inAllNodes.mp (mem_filter.mp filtered).1
  · intro status current input edge notWalked
    apply mem_reverse.mpr
    have comparable : ∀ u v : Node, u ≠ v → decide (ids v < ids u) = true ∨ decide (ids u < ids v) = true := by
      intro u v different
      have numbers : ids u ≠ ids v := fun same => different (distinct u v same)
      exact (lt_or_gt_of_ne numbers.symm).imp decide_eq_true decide_eq_true
    apply (mem_setOf fun u _ v _ different => comparable u v different).mpr
    exact mem_filter.mpr ⟨mem_inAllNodes.mpr edge,by simpa using notWalked⟩

theorem stableRdfsTopologicalSorting_extends (sortable : Sortable graph) (distinct : ∀ u v, ids u = ids v → u = v) :
    ∃ order bound, LinearExtension graph graph.outAllNodes order ∧
      ∀ fuel, bound ≤ fuel → stableRdfsTopologicalSorting graph ids fuel = some order := by
  apply walkAll_extends (stableInputs_pushes distinct) sortable.followed
  intro final closed visited node
  rcases visited node with known | ⟨status,skip,walked⟩
  · exact known
  · exact walked node (by simpa using skip)

end GraphEngine.Sorting
