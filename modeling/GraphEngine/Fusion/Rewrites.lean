import GraphEngine.Fusion.CycleDetector

/-! Pattern fusion with one detector for the whole pass. The detector knows the names of the graph it was made for, not those
that a replacement brings in; it is updated with the names from before they were made unique. -/
namespace GraphEngine.Fusion

open Relation Lib List ConnectionMatrix

/-- A pattern replacement: the matched nodes, the names of the replacement's own nodes and the graph it leaves. -/
structure Rewrite where
  matched : List String
  replacement : List String
  after : Graph String

/-- `MakeSureReplacementNodeNameUnique`, with the counter of the thread. -/
def renamed (newNodeCount : Nat) (names : List String) : List String :=
  names.zipIdx.map fun (name,i) => name ++ toString (newNodeCount + i)

structure FusionState where
  graph : Graph String
  detector : ConnectionMatrix String
  newNodeCount : Nat

def FusionState.start (graph : Graph String) (newNodeCount : Nat) : FusionState := ⟨graph,.generate graph,newNodeCount⟩

def willCauseCycleIfFuse (s : FusionState) (matched : List String) : Bool :=
  if matched.isEmpty then false else hasDetectedCycle s.graph s.detector [matched]

/-- The replacement and then `UpdateToCycleDetector`, which ignores the match. -/
def FusionState.replace (s : FusionState) (rewrite : Rewrite) : FusionState where
  graph := rewrite.after
  detector := s.detector.update rewrite.after rewrite.replacement
  newNodeCount := s.newNodeCount + rewrite.replacement.length

/-- What a replacement may do: the new nodes take over inputs and outputs of the matched ones. -/
structure Replaces (before : Graph String) (newNodeCount : Nat) (rewrite : Rewrite) : Prop where
  matched_known : ∀ node ∈ rewrite.matched, node ∈ before.nodes
  others : ∀ node ∈ before.nodes, node ∉ rewrite.matched → node ∈ rewrite.after.nodes
  nodes : ∀ node ∈ rewrite.after.nodes, node ∈ before.nodes ∨ node ∈ renamed newNodeCount rewrite.replacement
  introduced : ∀ node ∈ renamed newNodeCount rewrite.replacement, node ∈ rewrite.after.nodes ∧ node ∉ before.nodes
  closed : ∀ u v, rewrite.after.Edge u v → u ∈ rewrite.after.nodes ∧ v ∈ rewrite.after.nodes
  edges : ∀ u v, rewrite.after.Edge u v → before.Edge u v ∨
    (u ∈ rewrite.matched ∨ u ∈ renamed newNodeCount rewrite.replacement ∨ ∃ node ∈ rewrite.matched, before.Edge u node) ∧
    (v ∈ rewrite.matched ∨ v ∈ renamed newNodeCount rewrite.replacement ∨ ∃ node ∈ rewrite.matched, before.Edge node v)
  acyclic : Acyclic rewrite.after.Edge

/-- The states of a pass: each replacement follows an answer that it causes no cycle. The condition holds of every
replacement. -/
inductive Run (condition : FusionState → Rewrite → Prop) (initial : FusionState) : FusionState → Prop
  | start : Run condition initial initial
  | step {s : FusionState} (rewrite : Rewrite) (before : Run condition initial s)
      (answered : willCauseCycleIfFuse s rewrite.matched = false)
      (replaces : Replaces s.graph s.newNodeCount rewrite) (meets : condition s rewrite) :
      Run condition initial (s.replace rewrite)

/-- The replacement uses no name of the detector and makes no new path between two remaining nodes. -/
structure Mild (s : FusionState) (rewrite : Rewrite) : Prop where
  fresh : ∀ node ∈ renamed s.newNodeCount rewrite.replacement, node ∉ s.detector.names
  paths : ∀ x ∈ s.graph.nodes, ∀ y ∈ s.graph.nodes, x ∈ rewrite.after.nodes → y ∈ rewrite.after.nodes →
    ReflTransGen rewrite.after.Edge x y → ReflTransGen s.graph.Edge x y

namespace ConnectionMatrix
variable {Name : Type} [DecidableEq Name]

theorem isConnected_setBitMap_or (matrix : ConnectionMatrix Name) (node : Name) (more : LargeBitmap) {x y : Name}
    (connected : matrix.isConnected x y = true) :
    (matrix.setBitMap node ((matrix.getBitMap node).or more)).isConnected x y = true := by
  unfold isConnected at connected ⊢
  rw [getIndex_setBitMap]
  by_cases same : matrix.getIndex node = matrix.getIndex y
  · have bitmap : matrix.getBitMap node = matrix.getBitMap y := by
      unfold getBitMap
      rw [same]
    have updated : (matrix.setBitMap node ((matrix.getBitMap node).or more)).getBitMap y =
          (matrix.getBitMap y).or more ∨
        (matrix.setBitMap node ((matrix.getBitMap node).or more)).getBitMap y = matrix.getBitMap y := by
      unfold getBitMap
      rw [getIndex_setBitMap]
      change (matrix.bitMaps.set (matrix.getIndex node) _).getD _ _ = _ ∨
        (matrix.bitMaps.set (matrix.getIndex node) _).getD _ _ = _
      rw [same,getD_eq_getElem?_getD,getElem?_set]
      by_cases inside : matrix.getIndex y < matrix.bitMaps.length
      · rw [if_pos rfl,if_pos inside]
        exact .inl rfl
      · rw [if_pos rfl,if_neg inside,getD_eq_getElem?_getD,getElem?_eq_none (Nat.not_lt.mp inside)]
        exact .inr rfl
    rcases updated with updated | updated
    · rw [updated]
      rw [LargeBitmap.getBit_or,connected,Bool.true_or]
    · rw [updated]
      exact connected
  · rw [getBitMap_setBitMap_other same]
    exact connected

theorem spread_grows (fusionNodes : List Name) (more : LargeBitmap) (nodes : List Name) (matrix : ConnectionMatrix Name) :
    (spread fusionNodes more nodes matrix).names = matrix.names ∧
      ∀ x y, matrix.isConnected x y = true → (spread fusionNodes more nodes matrix).isConnected x y = true := by
  induction nodes generalizing matrix with
  | nil => exact ⟨rfl,fun _ _ connected => connected⟩
  | cons node nodes ih =>
    unfold spread at ih ⊢
    rw [foldl_cons,spreadNode]
    split
    · obtain ⟨names,grows⟩ := ih (matrix.setBitMap node ((matrix.getBitMap node).or more))
      exact ⟨names,fun x y connected => grows x y (matrix.isConnected_setBitMap_or node more connected)⟩
    · exact ih matrix

theorem generate_names (graph : Graph Name) : (generate graph).names = graph.nodes := by
  have kept : ∀ (nodes : List Name) (matrix : ConnectionMatrix Name), (nodes.foldl (fun matrix node =>
      matrix.setConnectivity (graph.inAllNodes node) node) matrix).names = matrix.names := by
    intro nodes
    induction nodes with
    | nil => intro matrix; rfl
    | cons node nodes ih => intro matrix; rw [foldl_cons,ih]; rfl
  exact kept graph.nodes (make graph)

end ConnectionMatrix

/-- What the detector still knows: all paths between nodes of the graph that it was made for. -/
structure Knows (initial : Graph String) (s : FusionState) : Prop where
  names : s.detector.names = initial.nodes
  closed : ∀ u v, s.graph.Edge u v → v ∈ s.graph.nodes
  acyclic : Acyclic s.graph.Edge
  grown : ∀ x y, (ConnectionMatrix.generate initial).isConnected x y = true → s.detector.isConnected x y = true
  paths : ∀ x ∈ initial.nodes, ∀ y ∈ initial.nodes, x ∈ s.graph.nodes → y ∈ s.graph.nodes →
    ReflTransGen s.graph.Edge x y → ReflTransGen initial.Edge x y

theorem Knows.start {initial : Graph String} (sorted : initial.Topological) (newNodeCount : Nat) :
    Knows initial (.start initial newNodeCount) where
  names := generate_names initial
  closed u v edge := (sorted.forward u v edge).2.1
  acyclic := sorted.acyclic
  grown _ _ connected := connected
  paths _ _ _ _ _ _ path := path

theorem Knows.step {initial : Graph String} {s : FusionState} {rewrite : Rewrite} (knows : Knows initial s)
    (replaces : Replaces s.graph s.newNodeCount rewrite) (mild : Mild s rewrite) : Knows initial (s.replace rewrite) := by
  obtain ⟨names,grows⟩ := spread_grows rewrite.replacement _ rewrite.after.nodes s.detector
  have remains : ∀ x ∈ initial.nodes, x ∈ rewrite.after.nodes → x ∈ s.graph.nodes := by
    intro x original there
    rcases replaces.nodes x there with before | introduced
    · exact before
    · have unknown := mild.fresh x introduced
      rw [knows.names] at unknown
      exact absurd original unknown
  refine ⟨names.trans knows.names,fun u v edge => (replaces.closed u v edge).2,replaces.acyclic,?_,?_⟩
  · exact fun x y connected => grows x y (knows.grown x y connected)
  · intro x originalX y originalY thereX thereY path
    have beforeX := remains x originalX thereX
    have beforeY := remains y originalY thereY
    exact knows.paths x originalX y originalY beforeX beforeY (mild.paths x beforeX y beforeY thereX thereY path)

theorem Run.knows {initial : Graph String} (sorted : initial.Topological) {newNodeCount : Nat} {s : FusionState}
    (run : Run Mild (.start initial newNodeCount) s) : Knows initial s := by
  induction run with
  | start => exact .start sorted newNodeCount
  | step rewrite before answered replaces mild ih => exact ih.step replaces mild

/-- In every pass of mild replacements, the answer for original nodes whose consumers are original is yes whenever fusing
them makes a cycle in the present graph. -/
theorem willCauseCycleIfFuse_sound (initial : Graph String) (sorted : initial.Topological) (newNodeCount : Nat)
    (s : FusionState) (run : Run Mild (.start initial newNodeCount) s) (matched : List String)
    (inGraph : ∀ node ∈ matched, node ∈ s.graph.nodes) (original : ∀ node ∈ matched, node ∈ initial.nodes)
    (consumers : ∀ node ∈ matched, ∀ peer, s.graph.Edge node peer → peer ∈ initial.nodes)
    (cyclic : ¬Acyclic (Fused s.graph [matched])) : willCauseCycleIfFuse s matched = true := by
  have knows := run.knows sorted
  obtain ⟨u,insideU,p,edge,outside,v,insideV,path⟩ := (alone_iff knows.acyclic).mp cyclic
  have originalP := consumers u insideU p edge
  have thereP := knows.closed u p edge
  have before := knows.paths p originalP v (original v insideV) thereP (inGraph v insideV) path
  have connected := knows.grown p v
    ((generate_isConnected sorted originalP (original v insideV)).mpr before)
  have other : v ≠ u := by
    rintro rfl
    exact knows.acyclic v (TransGen.head' edge path)
  have some_ : matched.isEmpty = false := by
    cases matched with
    | nil => cases insideU
    | cons node rest => rfl
  unfold willCauseCycleIfFuse
  rw [some_]
  simp only [Bool.false_eq_true,if_false,hasDetectedCycle,detectOneScope,checkEachPeerOut,any_cons,any_nil,
    Bool.or_false,any_eq_true,Bool.and_eq_true,Bool.not_eq_true',contains_eq_mem,decide_eq_false_iff_not,
    decide_eq_true_eq,Graph.mem_outAllNodes]
  exact ⟨u,insideU,p,edge,outside,v,insideV,other,connected⟩

def shortCut : Graph String := ⟨["p","q","s"],[("p","q"),("q","s"),("p","s")]⟩

def replaceLast : Rewrite := ⟨["s"],["r"],⟨["p","q","r0"],[("p","q"),("q","r0"),("p","r0")]⟩⟩

theorem Graph.forall_edge {graph : Graph String} {property : String → String → Prop}
    (each : ∀ link ∈ graph.edges, property link.1 link.2) (u v : String) (edge : graph.Edge u v) : property u v :=
  each (u,v) edge

instance (graph : Graph String) (u v : String) : Decidable (graph.Edge u v) :=
  inferInstanceAs (Decidable ((u,v) ∈ graph.edges))

/-- After one replacement the first node and the new one may be fused, says the detector, but a path leads from the
one through the middle to the other. -/
theorem new_node_unknown :
    ∃ s, Run (fun _ _ => True) (.start shortCut 0) s ∧ (∀ node ∈ ["p","r0"], node ∈ s.graph.nodes) ∧
      ¬Acyclic (Fused s.graph [["p","r0"]]) ∧ willCauseCycleIfFuse s ["p","r0"] = false := by
  have sorted : replaceLast.after.Topological := by decide
  have replaces : Replaces shortCut 0 replaceLast :=
    ⟨by decide,by decide,by decide,by decide,Graph.forall_edge (by decide),Graph.forall_edge (by decide),sorted.acyclic⟩
  refine ⟨(FusionState.start shortCut 0).replace replaceLast,
    .step replaceLast .start (by decide +kernel) replaces trivial,by decide,?_,by decide +kernel⟩
  refine (alone_iff sorted.acyclic).mpr ⟨"p",by decide,"q",?_,by decide,"r0",by decide,.single ?_⟩
  all_goals
    change _ ∈ replaceLast.after.edges
    decide

def line : Graph String := ⟨["a","b","c","d","e"],[("a","b"),("b","c"),("c","d"),("d","e")]⟩

def replaceSecond : Rewrite := ⟨["b"],["r"],⟨["a","r0","c","d","e"],[("a","r0"),("r0","c"),("c","d"),("d","e")]⟩⟩

/-- The third and the last node cannot be fused before or after the replacement, and the detector still says so. -/
theorem line_sound :
    ∃ s, Run Mild (.start line 0) s ∧ s.graph = replaceSecond.after ∧ willCauseCycleIfFuse s ["c","e"] = true := by
  have sorted : replaceSecond.after.Topological := by decide
  have sortedLine : line.Topological := by decide
  have replaces : Replaces line 0 replaceSecond :=
    ⟨by decide,by decide,by decide,by decide,Graph.forall_edge (by decide),Graph.forall_edge (by decide),sorted.acyclic⟩
  have mild : Mild (.start line 0) replaceSecond := by
    refine ⟨by decide +kernel,?_⟩
    intro x beforeX y beforeY afterX afterY path
    have all : ∀ x ∈ line.nodes, ∀ y ∈ line.nodes,
        (generate replaceSecond.after).isConnected x y = true →
        (generate line).isConnected x y = true ∨ x ∉ replaceSecond.after.nodes ∨
          y ∉ replaceSecond.after.nodes := by decide +kernel
    rcases all x beforeX y beforeY ((generate_isConnected sorted afterX afterY).mpr path) with
      connected | gone | gone
    · exact (generate_isConnected sortedLine beforeX beforeY).mp connected
    · exact absurd afterX gone
    · exact absurd afterY gone
  have run : Run Mild (.start line 0) ((FusionState.start line 0).replace replaceSecond) :=
    .step replaceSecond .start (by decide +kernel) replaces mild
  refine ⟨_,run,rfl,willCauseCycleIfFuse_sound line sortedLine 0 _ run ["c","e"] (by decide) (by decide) ?_ ?_⟩
  · have consumers : ∀ node peer, replaceSecond.after.Edge node peer → node ∈ ["c","e"] → peer ∈ line.nodes :=
      Graph.forall_edge (by decide)
    exact fun node inside peer edge => consumers node peer edge inside
  · refine (alone_iff sorted.acyclic).mpr ⟨"c",by decide,"d",?_,by decide,"e",by decide,.single ?_⟩
    all_goals
      change _ ∈ replaceSecond.after.edges
      decide

end GraphEngine.Fusion
