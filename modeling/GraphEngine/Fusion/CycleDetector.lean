import GraphEngine.Lib.Contraction
import GraphEngine.Fusion.ConnectionMatrix

/-! The cycle detector takes the scopes one after the other. It finds exactly the scopes that cannot be contracted
alone; a cycle through several scopes that are contracted together is not found. -/
namespace GraphEngine.Fusion

open Relation Lib List

variable {Name : Type} [DecidableEq Name]

section
variable (graph : Graph Name) (connectivity : ConnectionMatrix Name)

def checkEachPeerOut (scopeNodes : List Name) (node : Name) : Bool :=
  (graph.outAllNodes node).any fun peerOut =>
    !scopeNodes.contains peerOut && scopeNodes.any fun other => other ≠ node && connectivity.isConnected peerOut other

def detectOneScope (scopeNodes : List Name) : Bool :=
  scopeNodes.any (checkEachPeerOut graph connectivity scopeNodes)

def hasDetectedCycle (fusionNodes : List (List Name)) : Bool :=
  fusionNodes.any (detectOneScope graph connectivity)

end

def scopeImage (fusionNodes : List (List Name)) (node : Name) : Name ⊕ Nat :=
  match fusionNodes.findIdx? (node ∈ ·) with
  | some scope => .inr scope
  | none => .inl node

def Fused (graph : Graph Name) (fusionNodes : List (List Name)) : Name ⊕ Nat → Name ⊕ Nat → Prop :=
  Contracted graph.Edge (scopeImage fusionNodes)

theorem scopeImage_parts (fusionNodes : List (List Name)) : Parts (scopeImage fusionNodes) where
  single {u v} image := by
    unfold scopeImage at image
    split at image
    · cases image
    · exact Sum.inl.inj image

theorem scopeImage_eq_inr {fusionNodes : List (List Name)} (disjoint : fusionNodes.Pairwise List.Disjoint)
    {node : Name} {i : Nat} : scopeImage fusionNodes node = .inr i ↔ ∃ scope, fusionNodes[i]? = some scope ∧ node ∈ scope := by
  unfold scopeImage
  cases found : fusionNodes.findIdx? (node ∈ ·) with
  | none =>
    rw [findIdx?_eq_none_iff] at found
    simp only [reduceCtorEq,false_iff]
    rintro ⟨scope,at_,inside⟩
    have outside := found scope (mem_of_getElem? at_)
    simp [inside] at outside
  | some j =>
    rw [findIdx?_eq_some_iff_getElem] at found
    obtain ⟨small,inside,-⟩ := found
    have insideJ : node ∈ fusionNodes[j] := by simpa using inside
    constructor
    · intro same
      have atJ : j = i := Sum.inr.inj same
      subst atJ
      exact ⟨fusionNodes[j],getElem?_eq_getElem small,insideJ⟩
    · rintro ⟨scope,at_,insideI⟩
      obtain ⟨smallI,rfl⟩ := List.getElem?_eq_some_iff.mp at_
      have apart := pairwise_iff_getElem.mp disjoint
      rcases lt_trichotomy i j with less | same | more
      · exact absurd insideJ (apart i j smallI small less insideI)
      · rw [same]
      · exact absurd insideI (apart j i small smallI more insideJ)

namespace Graph.Topological
variable {graph : Graph Name}

theorem idxOf_lt (sorted : graph.Topological) {u v : Name} (path : TransGen graph.Edge u v) :
    graph.nodes.idxOf u < graph.nodes.idxOf v := by
  induction path with
  | single edge => exact (sorted.forward _ _ edge).2.2
  | tail before edge ih => exact lt_trans ih (sorted.forward _ _ edge).2.2

theorem acyclic (sorted : graph.Topological) : Acyclic graph.Edge := fun _ path =>
  absurd (sorted.idxOf_lt path) (lt_irrefl _)

end Graph.Topological

structure Reachability (graph : Graph Name) (matrix : ConnectionMatrix Name) : Prop where
  acyclic : Acyclic graph.Edge
  closed : ∀ u v, graph.Edge u v → v ∈ graph.nodes
  exact : ∀ x ∈ graph.nodes, ∀ y ∈ graph.nodes, matrix.isConnected x y = true ↔ ReflTransGen graph.Edge x y

theorem Graph.Topological.reachability {graph : Graph Name} (sorted : graph.Topological) :
    Reachability graph (.generate graph) where
  acyclic := sorted.acyclic
  closed u v edge := (sorted.forward u v edge).2.1
  exact _ knownX _ knownY := ConnectionMatrix.generate_isConnected sorted knownX knownY

theorem detectOneScope_iff {graph : Graph Name} {matrix : ConnectionMatrix Name} (reach : Reachability graph matrix)
    {scope : List Name} (inGraph : ∀ node ∈ scope, node ∈ graph.nodes) : detectOneScope graph matrix scope = true ↔
      ∃ u ∈ scope, ∃ p, graph.Edge u p ∧ p ∉ scope ∧ ∃ v ∈ scope, ReflTransGen graph.Edge p v := by
  simp only [detectOneScope,checkEachPeerOut,any_eq_true,Bool.and_eq_true,Bool.not_eq_true',
    contains_eq_mem,decide_eq_false_iff_not,decide_eq_true_eq,Graph.mem_outAllNodes]
  constructor
  · rintro ⟨u,inside,p,edge,outside,v,insideV,-,connected⟩
    exact ⟨u,inside,p,edge,outside,v,insideV,(reach.exact p (reach.closed u p edge) v (inGraph v insideV)).mp connected⟩
  · rintro ⟨u,inside,p,edge,outside,v,insideV,path⟩
    refine ⟨u,inside,p,edge,outside,v,insideV,?_,(reach.exact p (reach.closed u p edge) v (inGraph v insideV)).mpr path⟩
    rintro rfl
    exact reach.acyclic v (TransGen.head' edge path)

section Scopes
variable {graph : Graph Name} {matrix : ConnectionMatrix Name} {fusionNodes : List (List Name)}

theorem leaves_iff (disjoint : fusionNodes.Pairwise List.Disjoint) {i : Nat} :
    Leaves graph.Edge (scopeImage fusionNodes) (.inr i) (.inr i) ↔ ∃ scope, fusionNodes[i]? = some scope ∧
      ∃ u ∈ scope, ∃ p, graph.Edge u p ∧ p ∉ scope ∧ ∃ v ∈ scope, ReflTransGen graph.Edge p v := by
  constructor
  · rintro ⟨u,p,v,atU,edge,away,path,atV⟩
    obtain ⟨scope,at_,inside⟩ := (scopeImage_eq_inr disjoint).mp atU
    obtain ⟨scope',at_',insideV⟩ := (scopeImage_eq_inr disjoint).mp atV
    rw [at_] at at_'
    cases at_'
    exact ⟨scope,at_,u,inside,p,edge,fun there => away ((scopeImage_eq_inr disjoint).mpr ⟨scope,at_,there⟩),v,insideV,path⟩
  · rintro ⟨scope,at_,u,inside,p,edge,outside,v,insideV,path⟩
    refine ⟨u,p,v,(scopeImage_eq_inr disjoint).mpr ⟨scope,at_,inside⟩,edge,?_,path,
      (scopeImage_eq_inr disjoint).mpr ⟨scope,at_,insideV⟩⟩
    intro same
    obtain ⟨scope',at_',there⟩ := (scopeImage_eq_inr disjoint).mp same
    rw [at_] at at_'
    cases at_'
    exact outside there

theorem hasDetectedCycle_iff (reach : Reachability graph matrix) (disjoint : fusionNodes.Pairwise List.Disjoint)
    (inGraph : ∀ scope ∈ fusionNodes, ∀ node ∈ scope, node ∈ graph.nodes) : hasDetectedCycle graph matrix fusionNodes = true ↔
      ∃ i, Leaves graph.Edge (scopeImage fusionNodes) (.inr i) (.inr i) := by
  simp only [leaves_iff disjoint]
  unfold hasDetectedCycle
  rw [any_eq_true]
  constructor
  · rintro ⟨scope,member,detected⟩
    obtain ⟨i,at_⟩ := mem_iff_getElem?.mp member
    exact ⟨i,scope,at_,(detectOneScope_iff reach (inGraph scope member)).mp detected⟩
  · rintro ⟨i,scope,at_,back⟩
    have member := mem_of_getElem? at_
    exact ⟨scope,member,(detectOneScope_iff reach (inGraph scope member)).mpr back⟩

theorem alone_iff (acyclic : Acyclic graph.Edge) {scope : List Name} : ¬Acyclic (Fused graph [scope]) ↔
      ∃ u ∈ scope, ∃ p, graph.Edge u p ∧ p ∉ scope ∧ ∃ v ∈ scope, ReflTransGen graph.Edge p v := by
  have disjoint : [scope].Pairwise List.Disjoint := pairwise_singleton ..
  unfold Fused
  rw [contracted_acyclic_iff (scopeImage_parts _) acyclic]
  constructor
  · intro cyclic
    by_contra none
    refine cyclic ⟨?_,?_⟩
    · intro i leaves
      obtain ⟨scope',at_,back⟩ := (leaves_iff disjoint).mp leaves
      have same : scope' = scope := mem_singleton.mp (mem_of_getElem? at_)
      rw [same] at back
      exact none back
    · intro i around
      -- with one scope there is no other one to go to
      have step : ∀ {i j}, ¬Between graph.Edge (scopeImage [scope]) i j := by
        rintro i j ⟨other,u,v,atI,atJ,-⟩
        obtain ⟨_,at_,-⟩ := (scopeImage_eq_inr disjoint).mp atI
        obtain ⟨_,at_',-⟩ := (scopeImage_eq_inr disjoint).mp atJ
        have first := (List.getElem?_eq_some_iff.mp at_).1
        have second := (List.getElem?_eq_some_iff.mp at_').1
        simp only [length_singleton] at first second
        omega
      cases around with
      | single edge => exact step edge
      | tail before edge => exact step edge
  · rintro back ⟨convex,-⟩
    exact convex 0 ((leaves_iff disjoint).mpr ⟨scope,rfl,back⟩)

end Scopes

/-- For an acyclic graph with its own matrix and disjoint scopes the detector is exact precisely if some scope is cyclic
alone, or no paths go around through several scopes. -/
theorem hasDetectedCycle_exact_iff (graph : Graph Name) (reach : Reachability graph (.generate graph))
    (fusionNodes : List (List Name))
    (inGraph : ∀ scope ∈ fusionNodes, ∀ node ∈ scope, node ∈ graph.nodes)
    (disjoint : fusionNodes.Pairwise List.Disjoint) :
    (hasDetectedCycle graph (.generate graph) fusionNodes = false ↔ Acyclic (Fused graph fusionNodes)) ↔
      (∃ scope ∈ fusionNodes, ¬Acyclic (Fused graph [scope])) ∨
        Acyclic (Between graph.Edge (scopeImage fusionNodes)) := by
  have detected := hasDetectedCycle_iff reach disjoint inGraph
  have acyclic : Acyclic (Fused graph fusionNodes) ↔ _ :=
    contracted_acyclic_iff (scopeImage_parts fusionNodes) reach.acyclic
  have alone : (∃ scope ∈ fusionNodes, ¬Acyclic (Fused graph [scope])) ↔
      ∃ i, Leaves graph.Edge (scopeImage fusionNodes) (.inr i) (.inr i) := by
    simp only [alone_iff reach.acyclic,leaves_iff disjoint]
    constructor
    · rintro ⟨scope,member,back⟩
      obtain ⟨i,at_⟩ := mem_iff_getElem?.mp member
      exact ⟨i,scope,at_,back⟩
    · rintro ⟨i,scope,at_,back⟩
      exact ⟨scope,mem_of_getElem? at_,back⟩
  rw [alone,acyclic,← Bool.not_eq_true,detected,not_exists]
  constructor
  · intro exact_
    by_cases found : ∃ i, Leaves graph.Edge (scopeImage fusionNodes) (.inr i) (.inr i)
    · exact .inl found
    · exact .inr (exact_.mp (not_exists.mp found)).2
  · rintro (found | around)
    · exact iff_of_false (not_forall_not.mpr found) fun both => not_forall_not.mpr found both.1
    · exact ⟨fun convex => ⟨convex,around⟩,fun both => both.1⟩

instance (graph : Graph Name) : Decidable graph.Topological :=
  decidable_of_iff (graph.nodes.Nodup ∧ ∀ edge ∈ graph.edges,
    edge.1 ∈ graph.nodes ∧ edge.2 ∈ graph.nodes ∧ graph.nodes.idxOf edge.1 < graph.nodes.idxOf edge.2)
    ⟨fun ⟨nodup,forward⟩ => ⟨nodup,fun u v edge => forward (u,v) edge⟩,
      fun sorted => ⟨sorted.nodup,fun _ member => sorted.forward _ _ member⟩⟩

def crossed : Graph String := ⟨["a","b","c","d"],[("a","b"),("c","d")]⟩

/-- Neither scope is found, but fused together they form a cycle. -/
theorem crossed_scopes_undetected :
    Reachability crossed (.generate crossed) ∧ [["a","d"],["b","c"]].Pairwise List.Disjoint ∧
      hasDetectedCycle crossed (.generate crossed) [["a","d"],["b","c"]] = false ∧
      ¬Acyclic (Fused crossed [["a","d"],["b","c"]]) := by
  refine ⟨Graph.Topological.reachability (by decide),?_,by decide +kernel,?_⟩
  · rw [pairwise_pair]
    intro node
    simp only [mem_cons,not_mem_nil,or_false]
    rintro (rfl | rfl) <;> decide
  intro acyclic
  have forth : Fused crossed [["a","d"],["b","c"]] (.inr 0) (.inr 1) :=
    ⟨by decide,"a","b",by decide,by decide,by simp [Graph.Edge,crossed]⟩
  have back : Fused crossed [["a","d"],["b","c"]] (.inr 1) (.inr 0) :=
    ⟨by decide,"c","d",by decide,by decide,by simp [Graph.Edge,crossed]⟩
  exact acyclic _ (.tail (.single forth) back)

def chain : Graph String := ⟨["a","b","c"],[("a","b"),("b","c")]⟩

/-- A chain whose ends are fused: the one scope is found. -/
theorem chain_exact :
    (hasDetectedCycle chain (.generate chain) [["a","c"]] = false ↔ Acyclic (Fused chain [["a","c"]])) ↔
      (∃ scope ∈ [["a","c"]], ¬Acyclic (Fused chain [scope])) ∨ Acyclic (Between chain.Edge (scopeImage [["a","c"]])) :=
  hasDetectedCycle_exact_iff chain (Graph.Topological.reachability (by decide)) [["a","c"]] (by decide) (pairwise_singleton ..)

end GraphEngine.Fusion
