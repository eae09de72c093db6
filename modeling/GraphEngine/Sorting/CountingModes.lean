import GraphEngine.Sorting.Counting

/-! Breadth first and depth first sorting of a plain graph end, and their result is a linear extension. -/

namespace GraphEngine.Sorting
open Lib Lib.Countdown List TopoSortStack
variable {Node : Type} [DecidableEq Node] {graph : ComputeGraph Node}

section Sources

omit [DecidableEq Node] in
theorem swapAt_perm (stack : List Node) (i j : Nat) : (swapAt stack i j).Perm stack := by
  unfold swapAt
  split
  · rename_i a b atI atJ
    obtain ⟨lessI,isA⟩ := List.getElem?_eq_some_iff.mp atI
    obtain ⟨lessJ,isB⟩ := List.getElem?_eq_some_iff.mp atJ
    rw [← isA,← isB]
    exact set_set_perm lessI lessJ
  · exact .refl _

theorem swapInputs_perm (stack : List Node) (i : Nat) : (swapInputs graph stack i).Perm stack := by
  unfold swapInputs
  split
  · exact .refl _
  · rename_i node atI
    split
    · generalize range' (i + 1) (stack.length - (i + 1)) = indices
      generalize graph.inputsOrder.idxOf (graph.name node) = inxI
      clear atI
      induction indices generalizing stack with
      | nil => exact .refl _
      | cons j indices ih =>
        refine (ih _).trans ?_
        unfold swapInputsFrom
        split
        · exact .refl _
        · split
          · exact swapAt_perm stack i j
          · exact .refl _
    · exact .refl _

theorem swapAll_perm (graph : ComputeGraph Node) (indices : List Nat) (stack : List Node) :
    (indices.foldl (swapInputs graph) stack).Perm stack := by
  induction indices generalizing stack with
  | nil => exact .refl _
  | cons i indices ih => exact (ih _).trans (swapInputs_perm stack i)

structure Sourced (graph : ComputeGraph Node) (seen : List Node) (sources : Sources Node) : Prop where
  nodup : sources.stack.Nodup
  members : ∀ i, i ∈ sources.stack ↔ i ∈ seen ∧ graph.getInEdgeSize i % twoPow32 = 0
  counts : ∀ i ∈ seen, sources.mapInEdgeNum i = some (graph.getInEdgeSize i % twoPow32)

variable {seen : List Node} {sources : Sources Node}

theorem Sourced.step (sourced : Sourced graph seen sources) {node : Node}
    (fresh : node ∉ seen) : Sourced graph (seen ++ [node]) (sortNode graph sources node) := by
  have counts : ∀ i ∈ seen ++ [node], Function.update sources.mapInEdgeNum node
      (some (graph.getInEdgeSize node % twoPow32)) i = some (graph.getInEdgeSize i % twoPow32) := by
    intro i known
    by_cases here : i = node
    · subst here
      simp
    · rw [Function.update_of_ne here]
      refine sourced.counts i ?_
      simpa [here] using known
  have absent : node ∉ sources.stack := fun inside => fresh ((sourced.members node).mp inside).1
  simp only [sortNode]
  by_cases zero : graph.getInEdgeSize node % twoPow32 = 0
  · rw [if_pos zero]
    -- wherever the node is put, the stack gets this one more member
    have added : ∀ stack : List Node, stack.Perm (node :: sources.stack) →
        stack.Nodup ∧ ∀ i, i ∈ stack ↔ i ∈ seen ++ [node] ∧ graph.getInEdgeSize i % twoPow32 = 0 := by
      intro stack shuffled
      refine ⟨shuffled.nodup_iff.mpr (nodup_cons.mpr ⟨absent,sourced.nodup⟩),?_⟩
      intro i
      rw [shuffled.mem_iff,mem_cons,sourced.members,mem_append,mem_singleton]
      constructor
      · rintro (rfl | ⟨known,none_⟩)
        · exact ⟨.inr rfl,zero⟩
        · exact ⟨.inl known,none_⟩
      · rintro ⟨known | rfl,none_⟩
        · exact .inr ⟨known,none_⟩
        · exact .inl rfl
    split
    · have shuffled : (sources.stack.take sources.specNodeSize ++ node :: sources.stack.drop sources.specNodeSize).Perm
          (node :: sources.stack) := by
        refine perm_middle.trans ?_
        rw [take_append_drop]
      exact ⟨(added _ shuffled).1,(added _ shuffled).2,counts⟩
    · exact ⟨(added _ (.refl _)).1,(added _ (.refl _)).2,counts⟩
  · rw [if_neg zero]
    refine ⟨sourced.nodup,?_,counts⟩
    intro i
    rw [sourced.members,mem_append,mem_singleton]
    constructor
    · rintro ⟨known,none_⟩
      exact ⟨.inl known,none_⟩
    · rintro ⟨known | rfl,none_⟩
      · exact ⟨known,none_⟩
      · exact absurd none_ zero

theorem Sourced.run {nodes : List Node} (sourced : Sourced graph seen sources)
    (nodup : (seen ++ nodes).Nodup) : Sourced graph (seen ++ nodes) (nodes.foldl (sortNode graph) sources) := by
  induction nodes generalizing seen sources with
  | nil => simpa using sourced
  | cons node nodes ih =>
    have fresh : node ∉ seen := fun inside => disjoint_of_nodup_append nodup inside (.head _)
    have run := ih (sourced.step fresh) (by simpa using nodup)
    simpa using run

theorem sortNodes_spec (plain : Plain graph) :
    (sortNodes graph).1.Nodup ∧ (∀ i, i ∈ (sortNodes graph).1 ↔ (graph.inPeers i).length = 0) ∧
      ∀ i, (sortNodes graph).2 i = some (graph.inPeers i).length := by
  have size : ∀ i, graph.getInEdgeSize i % twoPow32 = (graph.inPeers i).length := by
    intro i
    rw [getInEdgeSize_eq plain.noLoopBack,Nat.mod_eq_of_lt (plain.countable i)]
  have start : Sourced graph [] ⟨[],0,fun _ => none⟩ := ⟨.nil,by simp,by simp⟩
  have sourced := start.run (by simpa using graph.nodup)
  have shuffled := swapAll_perm graph
    (range (graph.nodes.foldl (sortNode graph) ⟨[],0,fun _ => none⟩).stack.length)
    (graph.nodes.foldl (sortNode graph) ⟨[],0,fun _ => none⟩).stack
  refine ⟨shuffled.nodup_iff.mpr sourced.nodup,?_,?_⟩
  · intro i
    rw [← size i]
    refine (shuffled.mem_iff.trans (sourced.members i)).trans ?_
    simp [graph.all i]
  · intro i
    rw [← size i]
    exact sourced.counts i (by simpa using graph.all i)

theorem sortNodes_counted (plain : Plain graph) [Fintype Node] :
    Counted [] (sortNodes graph).1 (outstanding graph.outPeers []) (sortNodes graph).2 := by
  obtain ⟨nodup,members,counts⟩ := sortNodes_spec plain
  have owed : ∀ i, outstanding graph.outPeers [] i = (graph.inPeers i).length := by
    intro i
    simp only [outstanding,not_mem_nil,not_false_eq_true,Finset.filter_true,count_outPeers]
    have total := Multiset.sum_count_eq_card (s := Finset.univ) (m := (graph.inPeers i : Multiset Node)) (by simp)
    simpa only [Multiset.coe_count,Multiset.coe_card] using total
  refine ⟨fun i => ⟨_,counts i,plain.countable i⟩,nodup,?_,?_⟩
  · intro i ready
    rw [nil_append,members] at ready
    simp [owed,counts,ready]
  · intro i waiting
    rw [nil_append,members] at waiting
    simp only [owed,counts,Option.getD_some]
    exact ⟨Nat.pos_of_ne_zero waiting,trivial⟩

end Sources

section Finish

structure Taken (next : Node → List Node) (order : List Node) : Prop where
  nodup : order.Nodup
  sequenced : Sequenced next order.reverse

theorem Taken.extension {next : Node → List Node} {order : List Node} (taken : Taken next order) (all : ∀ i, i ∈ order) :
    LinearExtension graph next order := by
  refine ⟨(perm_ext_iff_of_nodup taken.nodup graph.nodup).mpr fun i => ?_,?_⟩
  · simp [all i,graph.all i]
  · intro u v edge
    obtain ⟨newer,older,shape⟩ := append_of_mem (mem_reverse.mpr (all v))
    have sequenced := taken.sequenced
    rw [shape] at sequenced
    have before := sequenced.before edge
    rw [← reverse_reverse order,shape,reverse_append,reverse_cons,append_assoc]
    exact .across (by simpa using before) (by simp)

variable [Fintype Node]

theorem Counted.take {done ready rest : List Node} {counts : InEdgeNum Node} {node : Node}
    (counted : Counted done ready (outstanding graph.outPeers done) counts) (taken : ready.Perm (node :: rest)) :
    (∀ source, node ∈ graph.outPeers source → source ∈ done) ∧ node ∉ done ∧
      Counted (node :: done) rest
        (fun i => outstanding graph.outPeers (node :: done) i + (graph.outPeers node).count i) counts := by
  have moved := counted.perm taken
  have next : (Discipline.fifo Node).dequeue (node :: rest) = some (node,rest) := rfl
  obtain ⟨sources,kept⟩ := moved.kept.next next
  refine ⟨sources,?_,counted.total,kept⟩
  intro again
  exact (nodup_cons.mp kept.once).1 (mem_append_left _ again)

end Finish

section Dfs

variable {done rest : List Node} {owed : Node → Nat} {state : DfsState Node} {anchors : List (List Node × List Node)}
  {reverse : Bool}

theorem pushAnchor_counted (reverse : Bool) (plain : Plain graph) {peers : List Node}
    (counted : Counted done state.stack.items (fun i => owed i + (peers ++ rest).count i) state.mapInEdgeNum) :
    Counted done (pushAnchor graph reverse state peers).stack.items (fun i => owed i + rest.count i)
      (pushAnchor graph reverse state peers).mapInEdgeNum := by
  have split : Counted done state.stack.items (fun i => (owed i + rest.count i) + peers.count i) state.mapInEdgeNum := by
    refine counted.congr fun i => ?_
    rw [count_append]
    omega
  have used := split.getOutNodes
  refine used.perm ?_
  have ordered : (state.stack.items ++ (getOutNodes peers state.mapInEdgeNum).2).Perm
      (state.stack.items ++ (if reverse then (getOutNodes peers state.mapInEdgeNum).2.reverse
        else (getOutNodes peers state.mapInEdgeNum).2)) := by
    cases reverse with
    | true => exact (reverse_perm _).symm.append_left _
    | false => exact .refl _
  have once : (state.stack.items ++ (getOutNodes peers state.mapInEdgeNum).2).Nodup := used.kept.once.of_append_right
  exact ordered.trans (pushAll_perm plain.distinctNames (ordered.nodup_iff.mp once)).symm

theorem pushAnchors_counted (reverse : Bool) (plain : Plain graph) (counted : Counted done state.stack.items
      (fun i => owed i + (anchors.flatMap (fun anchor => anchor.1 ++ anchor.2) ++ rest).count i) state.mapInEdgeNum) :
    Counted done (anchors.foldl (pushOutAnchor graph reverse) state).stack.items (fun i => owed i + rest.count i)
      (anchors.foldl (pushOutAnchor graph reverse) state).mapInEdgeNum := by
  induction anchors generalizing state with
  | nil => simpa using counted
  | cons anchor anchors ih =>
    refine ih (pushAnchor_counted reverse plain (pushAnchor_counted reverse plain ?_))
    simpa using counted

theorem pushAnchors_nodeVec : (anchors.foldl (pushOutAnchor graph reverse) state).nodeVec = state.nodeVec := by
  induction anchors generalizing state with
  | nil => rfl
  | cons anchor anchors ih => exact ih

variable [Fintype Node]

structure DfsInv (graph : ComputeGraph Node) (state : DfsState Node) : Prop where
  counted : Counted state.nodeVec.reverse state.stack.items (outstanding graph.outPeers state.nodeVec.reverse)
    state.mapInEdgeNum
  sequenced : Sequenced graph.outPeers state.nodeVec.reverse

theorem DfsInv.step (plain : Plain graph) {state' : DfsState Node} (inv : DfsInv graph state)
    (taken : dfsStep graph reverse state = some state') :
    DfsInv graph state' ∧ ∃ node, state'.nodeVec = state.nodeVec ++ [node] := by
  unfold dfsStep at taken
  split at taken
  · cases taken
  · rename_i node stack popped
    cases taken
    obtain ⟨sources,fresh,counted⟩ := inv.counted.take (pop_some popped)
    have vec : (pushAnchor graph reverse ((graph.outDataAnchors node).foldl (pushOutAnchor graph reverse)
        { state with stack := stack,nodeVec := state.nodeVec ++ [node] }) ((graph.outControl node).map Prod.fst)).nodeVec =
        state.nodeVec ++ [node] := pushAnchors_nodeVec
    refine ⟨⟨?_,?_⟩,node,vec⟩
    · rw [vec,reverse_append]
      let popped : DfsState Node := { state with stack := stack,nodeVec := state.nodeVec ++ [node] }
      have start : Counted (node :: state.nodeVec.reverse) popped.stack.items
          (fun i => outstanding graph.outPeers (node :: state.nodeVec.reverse) i +
            (graph.outPeers node).count i) popped.mapInEdgeNum := counted
      have data := pushAnchors_counted reverse plain start
      have control := pushAnchor_counted reverse plain (data.congr fun i => by rw [append_nil])
      exact control.congr fun i => by simp
    · rw [vec,reverse_append]
      exact ⟨sources,inv.sequenced⟩

theorem DfsInv.final (inv : DfsInv graph state)
    (stopped : dfsStep graph reverse state = none) (acyclic : Acyclic graph.Edge) : ∀ i, i ∈ state.nodeVec := by
  have empty : state.stack.items = [] := by
    apply pop_none
    unfold dfsStep at stopped
    split at stopped
    · assumption
    · cases stopped
  intro i
  exact mem_reverse.mp (inv.counted.kept.finished acyclic empty i)

theorem DfsInv.start (isMemPriority reverse : Bool) (plain : Plain graph) :
    DfsInv graph ⟨pushAll graph ⟨isMemPriority,true,reverse,[],[]⟩ (sortNodes graph).1,(sortNodes graph).2,[]⟩ := by
  refine ⟨(sortNodes_counted plain).perm ?_,trivial⟩
  have none_ : (⟨isMemPriority,true,reverse,[],[]⟩ : TopoSortStack Node).items = [] := by
    simp [items]
  have nodup := (sortNodes_spec plain).1
  have pushed := pushAll_perm plain.distinctNames (by rw [none_]; exact nodup)
  rw [none_] at pushed
  exact pushed.symm

omit [DecidableEq Node] in
theorem ends_of_takes {σ : Type} {step : σ → Option σ} (Inv : σ → Prop) (vec : σ → List Node) {start : σ}
    (keeps : ∀ s t, Inv s → step s = some t → Inv t ∧ ∃ node, vec t = vec s ++ [node])
    (once : ∀ s, Inv s → (vec s).Nodup) (holds : Inv start) : ∃ final, Ends step start final ∧ Inv final := by
  apply ends_of_wellFounded Nat.lt_wfRel.wf Inv (fun s => Fintype.card Node - (vec s).length)
  · intro s t inv taken
    obtain ⟨inv',node,longer⟩ := keeps s t inv taken
    have bound := (once t inv').length_le_card
    rw [longer,length_append,length_singleton] at bound
    refine ⟨inv',?_⟩
    change _ < _
    rw [longer,length_append,length_singleton]
    omega
  · exact holds

theorem dfsTopologicalSorting_ends (isMemPriority reverse : Bool) (plain : Plain graph) :
    ∃ order bound, Taken graph.outPeers order ∧ (Acyclic graph.Edge → ∀ i, i ∈ order) ∧
      ∀ fuel, bound ≤ fuel → dfsTopologicalSorting graph isMemPriority reverse fuel = some order := by
  obtain ⟨final,ends,inv⟩ := ends_of_takes (DfsInv graph) DfsState.nodeVec
    (fun s t inv (taken : dfsStep graph reverse s = some t) => inv.step plain taken)
    (fun s inv => nodup_reverse.mp inv.counted.kept.once.of_append_left) (DfsInv.start isMemPriority reverse plain)
  obtain ⟨bound,result⟩ := ends.result
  have taken : Taken graph.outPeers final.nodeVec :=
    ⟨nodup_reverse.mp inv.counted.kept.once.of_append_left,inv.sequenced⟩
  refine ⟨final.nodeVec,bound,taken,inv.final ends.stops,?_⟩
  intro fuel enough
  simp only [dfsTopologicalSorting,result fuel enough]
  rfl

end Dfs

section Bfs
variable [Fintype Node]

structure BfsInv (graph : ComputeGraph Node) (state : BfsState Node) : Prop where
  counted : Counted state.nodeVec.reverse (state.stackInput ++ state.stack.items)
    (outstanding graph.outPeers state.nodeVec.reverse) state.mapInEdgeNum
  sequenced : Sequenced graph.outPeers state.nodeVec.reverse

variable {state : BfsState Node}

omit [DecidableEq Node] [Fintype Node] in
theorem bfsTake_some {node : Node} {stackInput : List Node} {stack : TopoSortStack Node}
    (taken : bfsTake state = some (node,stackInput,stack)) :
    (state.stackInput ++ state.stack.items).Perm (node :: (stackInput ++ stack.items)) := by
  unfold bfsTake at taken
  split at taken
  · rename_i popped
    cases taken
    exact ((pop_some popped).append_left _).trans perm_middle
  · split at taken
    · cases taken
    · rename_i last
      cases taken
      obtain ⟨front,shape⟩ := getLast?_eq_some_iff.mp last
      rw [shape,dropLast_concat,append_assoc]
      exact perm_middle

omit [DecidableEq Node] [Fintype Node] in
theorem bfsTake_none (empty : bfsTake state = none) : state.stackInput ++ state.stack.items = [] := by
  unfold bfsTake at empty
  split at empty
  · cases empty
  · rename_i popped
    split at empty
    · rename_i last
      rw [getLast?_eq_none_iff.mp last,pop_none popped]
      rfl
    · cases empty

omit [Fintype Node] in
theorem names_comparable (distinctNames : ∀ u v, graph.name u = graph.name v → u = v) {u v : Node} (different : u ≠ v) :
    decide (graph.name u < graph.name v) = true ∨ decide (graph.name v < graph.name u) = true := by
  have names : graph.name u ≠ graph.name v := fun same => different (distinctNames u v same)
  exact (lt_or_gt_of_ne names).imp decide_eq_true decide_eq_true

theorem BfsInv.step (plain : Plain graph) {state' : BfsState Node} (inv : BfsInv graph state)
    (taken : bfsStep graph state = some state') : BfsInv graph state' ∧ ∃ node, state'.nodeVec = state.nodeVec ++ [node] := by
  unfold bfsStep at taken
  split at taken
  · cases taken
  · rename_i node stackInput stack found
    cases taken
    obtain ⟨sources,fresh,counted⟩ := inv.counted.take (bfsTake_some found)
    have used := counted.getOutNodes
    refine ⟨⟨?_,?_⟩,node,rfl⟩
    · rw [reverse_append]
      refine used.perm ?_
      rw [append_assoc]
      refine List.Perm.append_left stackInput ?_
      have once : (stack.items ++ (getOutNodes (graph.outPeers node) state.mapInEdgeNum).2).Nodup := by
        have all := used.kept.once.of_append_right
        rw [append_assoc] at all
        exact all.of_append_right
      have named := setOf_perm (fun u _ v _ different => names_comparable plain.distinctNames different)
        once.of_append_right
      have ordered := named.append_left stack.items
      exact ordered.symm.trans (pushAll_perm plain.distinctNames (ordered.nodup_iff.mpr once)).symm
    · rw [reverse_append]
      exact ⟨sources,inv.sequenced⟩

theorem BfsInv.final (inv : BfsInv graph state) (stopped : bfsStep graph state = none)
    (acyclic : Acyclic graph.Edge) : ∀ i, i ∈ state.nodeVec := by
  have empty : state.stackInput ++ state.stack.items = [] := by
    apply bfsTake_none
    unfold bfsStep at stopped
    split at stopped
    · assumption
    · cases stopped
  intro i
  exact mem_reverse.mp (inv.counted.kept.finished acyclic empty i)

theorem bfsTopologicalSorting_ends (isMemPriority : Bool) (plain : Plain graph) :
    ∃ order bound, Taken graph.outPeers order ∧ (Acyclic graph.Edge → ∀ i, i ∈ order) ∧
      ∀ fuel, bound ≤ fuel → bfsTopologicalSorting graph isMemPriority fuel = some order := by
  have start : BfsInv graph ⟨(sortNodes graph).1,⟨isMemPriority,false,false,[],[]⟩,(sortNodes graph).2,[]⟩ := by
    refine ⟨(sortNodes_counted plain).perm ?_,trivial⟩
    simp [items]
  obtain ⟨final,ends,inv⟩ := ends_of_takes (BfsInv graph) BfsState.nodeVec
    (fun s t inv taken => inv.step plain taken)
    (fun s inv => nodup_reverse.mp inv.counted.kept.once.of_append_left) start
  obtain ⟨bound,result⟩ := ends.result
  have taken : Taken graph.outPeers final.nodeVec :=
    ⟨nodup_reverse.mp inv.counted.kept.once.of_append_left,inv.sequenced⟩
  refine ⟨final.nodeVec,bound,taken,inv.final ends.stops,?_⟩
  intro fuel enough
  simp only [bfsTopologicalSorting,result fuel enough]
  rfl

end Bfs
end GraphEngine.Sorting
