import GraphEngine.Sorting.Correct

/-! Sorting graphs with a cycle. Counting edges never takes a node of the cycle. Walking against the edges takes every node
it gets to: the cycle goes unnoticed if the starting points are behind it. -/

namespace GraphEngine.Sorting
open Lib Relation Function List Option
variable {Node : Type} [DecidableEq Node] {graph : ComputeGraph Node} {order : List Node}

theorem LinearExtension.acyclic (extension : LinearExtension graph graph.outPeers order) : Acyclic graph.Edge := by
  have nodup := extension.perm.nodup_iff.mpr graph.nodup
  have precedes : ∀ {u v}, TransGen graph.Edge u v → Precedes order u v := by
    intro u v path
    induction path with
    | single edge => exact extension.forward _ _ edge
    | tail _ edge ih => exact ih.trans (extension.forward _ _ edge) nodup
  intro node around
  exact (precedes around).ne nodup rfl

theorem length_eq_iff (nodup : order.Nodup) : order.length = graph.nodes.length ↔ ∀ node, node ∈ order := by
  constructor
  · intro same node
    have subset : order ⊆ graph.nodes := fun other _ => graph.all other
    have perm := (subperm_of_subset nodup subset).perm_of_length_le same.ge
    exact perm.mem_iff.mpr (graph.all node)
  · intro all
    have perm : order.Perm graph.nodes :=
      (perm_ext_iff_of_nodup nodup graph.nodup).mpr fun node => by simp [all node,graph.all node]
    exact perm.length_eq

section Walk
variable {inputs : InputOrder Node} {skips : (Node → WalkStatus) → Node → Bool} {allowed : Node → Prop}
  {targets : List Node}

/-- What holds in a walk on any graph: every input of a node that was entered was entered or is on the stack. -/
structure Walking (graph : ComputeGraph Node) (allowed : Node → Prop) (targets : List Node) (state : WalkState Node) :
    Prop where
  nodup : state.nodeVec.Nodup
  walked : ∀ i, state.status i = .kWalked ↔ i ∈ state.nodeVec
  stacked : ∀ i, state.status i = .kWalking → i ∈ state.stack
  closed : ∀ u v, graph.Followed u v → state.status v ≠ .kNotWalked → state.status u ≠ .kNotWalked ∨ u ∈ state.stack
  within_ : ∀ i, state.status i ≠ .kNotWalked ∨ i ∈ state.stack → allowed i
  covers : ∀ i ∈ targets, state.status i ≠ .kNotWalked ∨ i ∈ state.stack

def walkMeasure (graph : ComputeGraph Node) (state : WalkState Node) : Nat × Nat :=
  (graph.nodes.countP fun node => state.status node = .kNotWalked,state.stack.length)

variable {status : Node → WalkStatus} {current : Node} {stack nodeVec : List Node} {state state' : WalkState Node}

theorem Walking.enter (pushes : Pushes graph inputs) (backwards : ∀ u v, graph.Followed u v → allowed v → allowed u)
    (walking : Walking graph allowed targets ⟨status,current :: stack,nodeVec⟩) (fresh : status current = .kNotWalked) :
    Walking graph allowed targets ⟨update status current .kWalking,
      inputs (update status current .kWalking) current ++ current :: stack,nodeVec⟩ := by
  have other : ∀ i, i ≠ current → update status current .kWalking i = status i :=
    fun i away => update_of_ne away ..
  have entered : ∀ i, status i ≠ .kNotWalked → update status current .kWalking i ≠ .kNotWalked := by
    intro i before
    by_cases isCurrent : i = current
    · exact absurd (isCurrent ▸ fresh) before
    · rw [other i isCurrent]
      exact before
  have later : ∀ i, status i ≠ .kNotWalked ∨ i ∈ current :: stack →
      update status current .kWalking i ≠ .kNotWalked ∨
        i ∈ inputs (update status current .kWalking) current ++ current :: stack := by
    rintro i (before | onStack)
    · exact .inl (entered i before)
    · exact .inr (mem_append_right _ onStack)
  refine ⟨walking.nodup,?_,?_,?_,?_,fun i target => later i (walking.covers i target)⟩
  · intro i
    rw [← walking.walked i]
    by_cases isCurrent : i = current
    · rw [isCurrent]
      simp [fresh]
    · exact iff_of_eq (congrArg (· = _) (other i isCurrent))
  · intro i isWalking
    by_cases isCurrent : i = current
    · rw [isCurrent]
      exact mem_append_right _ mem_cons_self
    · exact mem_append_right _ (walking.stacked i ((other i isCurrent).symm.trans isWalking))
  · intro u v edge known
    by_cases isCurrent : v = current
    · rw [isCurrent] at edge
      by_cases notWalked : update status current .kWalking u = .kNotWalked
      · exact .inr (mem_append_left _ (pushes.complete _ current u edge notWalked))
      · exact .inl notWalked
    · exact later u (walking.closed u v edge fun before => known ((other v isCurrent).trans before))
  · rintro i (known | onStack)
    · by_cases isCurrent : i = current
      · rw [isCurrent]
        exact walking.within_ current (.inr mem_cons_self)
      · exact walking.within_ i (.inl fun before => known ((other i isCurrent).trans before))
    · rcases mem_append.mp onStack with pushed | old
      · exact backwards i current (pushes.sound _ current i pushed) (walking.within_ current (.inr mem_cons_self))
      · exact walking.within_ i (.inr old)

section

variable (walking : Walking graph allowed targets ⟨status,current :: stack,nodeVec⟩)
include walking

theorem Walking.leave (open_ : status current = .kWalking) :
    Walking graph allowed targets ⟨update status current .kWalked,stack,nodeVec ++ [current]⟩ := by
  have other : ∀ i, i ≠ current → update status current .kWalked i = status i :=
    fun i away => update_of_ne away ..
  have known : ∀ i, update status current .kWalked i ≠ .kNotWalked ↔ status i ≠ .kNotWalked := by
    intro i
    by_cases isCurrent : i = current
    · rw [isCurrent,update_self,open_]
      simp
    · rw [other i isCurrent]
  have later : ∀ i, status i ≠ .kNotWalked ∨ i ∈ current :: stack →
      update status current .kWalked i ≠ .kNotWalked ∨ i ∈ stack := by
    intro i before
    rw [known]
    rcases before with entered | onStack
    · exact .inl entered
    · rcases mem_cons.mp onStack with rfl | below
      · exact .inl (by simp [open_])
      · exact .inr below
  have fresh : current ∉ nodeVec := by
    intro done
    have isWalked : status current = .kWalked := (walking.walked current).mpr done
    rw [open_] at isWalked
    cases isWalked
  refine ⟨?_,?_,?_,?_,?_,fun i target => later i (walking.covers i target)⟩
  · change (nodeVec ++ [current]).Nodup
    rw [nodup_append_comm]
    exact nodup_cons.mpr ⟨fresh,walking.nodup⟩
  · intro i
    change _ ↔ i ∈ nodeVec ++ [current]
    rw [mem_append,mem_singleton]
    by_cases isCurrent : i = current
    · simp [isCurrent]
    · rw [← walking.walked i]
      simp [isCurrent]
  · intro i isWalking
    by_cases isCurrent : i = current
    · rw [isCurrent] at isWalking
      simp at isWalking
    · have onStack := walking.stacked i ((other i isCurrent).symm.trans isWalking)
      exact (mem_cons.mp onStack).resolve_left isCurrent
  · intro u v edge entered
    exact later u (walking.closed u v edge ((known v).mp entered))
  · rintro i (entered | onStack)
    · exact walking.within_ i (.inl ((known i).mp entered))
    · exact walking.within_ i (.inr (mem_cons_of_mem _ onStack))

theorem Walking.drop (done : status current = .kWalked) : Walking graph allowed targets ⟨status,stack,nodeVec⟩ := by
  have later : ∀ i, status i ≠ .kNotWalked ∨ i ∈ current :: stack → status i ≠ .kNotWalked ∨ i ∈ stack := by
    rintro i (entered | onStack)
    · exact .inl entered
    · rcases mem_cons.mp onStack with rfl | below
      · exact .inl (by simp [done])
      · exact .inr below
  refine ⟨walking.nodup,walking.walked,?_,?_,?_,fun i target => later i (walking.covers i target)⟩
  · intro i isWalking
    apply (mem_cons.mp (walking.stacked i isWalking)).resolve_left
    rintro rfl
    change status i = .kWalking at isWalking
    rw [done] at isWalking
    cases isWalking
  · exact fun u v edge entered => later u (walking.closed u v edge entered)
  · intro i known
    exact walking.within_ i (known.imp_right (mem_cons_of_mem _))

end

theorem walkMeasure_lt (inputs : InputOrder Node) (taken : walkStep inputs state = some state') :
    Prod.Lex (· < ·) (· < ·) (walkMeasure graph state') (walkMeasure graph state) := by
  unfold walkStep at taken
  split at taken
  · cases taken
  · rename_i current stack onStack
    split at taken
    · rename_i fresh
      cases taken
      apply Prod.Lex.left
      have fewer : (fun node => decide (update state.status current .kWalking node = .kNotWalked)) =
          fun node => decide (node ≠ current) && decide (state.status node = .kNotWalked) := by
        ext node
        by_cases isCurrent : node = current
        all_goals simp [isCurrent]
      change (graph.nodes.countP fun node => decide (update state.status current .kWalking node = .kNotWalked)) <
        graph.nodes.countP fun node => decide (state.status node = .kNotWalked)
      rw [fewer,← countP_filter,countP_eq_length_filter (p := fun node => decide (state.status node = .kNotWalked))]
      apply countP_lt_length_iff.mpr
      exact ⟨current,mem_filter.mpr ⟨graph.all current,by simp [fresh]⟩,by simp⟩
    · rename_i open_
      cases taken
      have same : (fun node => decide (update state.status current .kWalked node = .kNotWalked)) =
          fun node => decide (state.status node = .kNotWalked) := by
        ext node
        by_cases isCurrent : node = current
        · rw [isCurrent,update_self,open_]
          rfl
        · rw [update_of_ne isCurrent]
      rw [walkMeasure,walkMeasure,same,onStack]
      apply Prod.Lex.right
      exact Nat.lt_succ_self _
    · cases taken
      rw [walkMeasure,walkMeasure,onStack]
      apply Prod.Lex.right
      exact Nat.lt_succ_self _

theorem Walking.step (pushes : Pushes graph inputs) (backwards : ∀ u v, graph.Followed u v → allowed v → allowed u)
    (walking : Walking graph allowed targets state)
    (taken : walkStep inputs state = some state') : Walking graph allowed targets state' := by
  obtain ⟨status,stack,nodeVec⟩ := state
  unfold walkStep at taken
  cases stack with
  | nil => cases taken
  | cons current stack =>
    dsimp only at taken
    split at taken
    · rename_i fresh
      cases taken
      exact walking.enter pushes backwards fresh
    · rename_i open_
      cases taken
      exact walking.leave open_
    · rename_i done
      cases taken
      exact walking.drop done

structure Calm (graph : ComputeGraph Node) (allowed : Node → Prop) (state : WalkState Node) : Prop where
  nodup : state.nodeVec.Nodup
  walked : ∀ i, state.status i = .kWalked ↔ i ∈ state.nodeVec
  still : ∀ i, state.status i ≠ .kWalking
  closed : ∀ u v, graph.Followed u v → v ∈ state.nodeVec → u ∈ state.nodeVec
  within_ : ∀ i ∈ state.nodeVec, allowed i

theorem Calm.entered (calm : Calm graph allowed state) (i : Node) : state.status i ≠ .kNotWalked ↔ i ∈ state.nodeVec := by
  rw [← calm.walked]
  have still := calm.still i
  cases kind : state.status i with
  | kNotWalked => simp
  | kWalking => exact absurd kind still
  | kWalked => simp

theorem Walking.calm (walking : Walking graph allowed targets ⟨status,[],nodeVec⟩) : Calm graph allowed ⟨status,[],nodeVec⟩ ∧
      ∀ i ∈ targets, i ∈ nodeVec := by
  have still : ∀ i, status i ≠ .kWalking := fun i isWalking => absurd (walking.stacked i isWalking) not_mem_nil
  have entered : ∀ i, status i ≠ .kNotWalked ∨ i ∈ ([] : List Node) → i ∈ nodeVec := by
    rintro i (known | impossible)
    · apply (walking.walked i).mp
      cases kind : status i with
      | kNotWalked => exact absurd kind known
      | kWalking => exact absurd kind (still i)
      | kWalked => exact kind
    · cases impossible
  have known : ∀ i ∈ nodeVec, status i ≠ .kNotWalked := by
    intro i done
    have isWalked : status i = .kWalked := (walking.walked i).mpr done
    simp [isWalked]
  refine ⟨⟨walking.nodup,walking.walked,still,?_,?_⟩,fun i target => entered i (walking.covers i target)⟩
  · exact fun u v edge done => entered u (walking.closed u v edge (known v done))
  · exact fun i done => walking.within_ i (.inl (known i done))

section
variable (pushes : Pushes graph inputs) (backwards : ∀ u v, graph.Followed u v → allowed v → allowed u)
  (starts : ∀ status node, skips status node = false → allowed node)
include pushes backwards starts

theorem walkFrom_calm (state : WalkState Node) (node : Node) (calm : Calm graph allowed state) :
    ∃ final bound, (∀ fuel, bound ≤ fuel → walkFrom inputs skips fuel state node = some final) ∧
      Calm graph allowed final ∧ (∀ i ∈ state.nodeVec, i ∈ final.nodeVec) ∧
      (skips state.status node = false → node ∈ final.nodeVec) := by
  cases skip : skips state.status node with
  | true =>
    refine ⟨state,0,?_,calm,fun _ known => known,by simp⟩
    intro fuel _
    rw [walkFrom,if_pos skip]
  | false =>
    have start : Walking graph allowed (node :: state.nodeVec) { state with stack := [node] } := by
      refine ⟨calm.nodup,calm.walked,fun i walking => absurd walking (calm.still i),?_,?_,?_⟩
      · intro u v edge known
        exact .inl ((calm.entered u).mpr (calm.closed u v edge ((calm.entered v).mp known)))
      · rintro i (known | onStack)
        · exact calm.within_ i ((calm.entered i).mp known)
        · rw [mem_singleton.mp onStack]
          exact starts state.status node skip
      · exact forall_mem_cons.mpr ⟨.inr mem_cons_self,fun i done => .inl ((calm.entered i).mpr done)⟩
    obtain ⟨⟨status,stack,nodeVec⟩,ends,walking⟩ := ends_of_wellFounded
      (WellFounded.prod_lex Nat.lt_wfRel.wf Nat.lt_wfRel.wf) (Walking graph allowed (node :: state.nodeVec))
      (walkMeasure graph) (fun s t inv taken => ⟨inv.step pushes backwards taken,walkMeasure_lt inputs taken⟩) start
    obtain ⟨bound,result⟩ := ends.result
    have empty : stack = [] := by
      cases stack with
      | nil => rfl
      | cons current stack =>
        have stops := ends.stops
        unfold walkStep at stops
        dsimp only at stops
        split at stops <;> cases stops
    subst empty
    obtain ⟨final,reached⟩ := walking.calm
    refine ⟨⟨status,[],nodeVec⟩,bound,?_,final,fun i done => reached i (mem_cons_of_mem _ done),?_⟩
    · intro fuel enough
      rw [walkFrom,if_neg (by simp [skip]),result fuel enough]
    · exact fun _ => reached node mem_cons_self

theorem walkAll_ends :
    ∃ order bound, (∀ fuel, bound ≤ fuel → walkAll graph inputs skips fuel = some order) ∧ order.Nodup ∧
      (∀ u v, graph.Followed u v → v ∈ order → u ∈ order) ∧ (∀ i ∈ order, allowed i) ∧
      ∀ node, node ∈ order ∨ ∃ status, skips status node = true ∧ ∀ i, status i = .kWalked → i ∈ order := by
  have start : Calm graph allowed ⟨fun _ => .kNotWalked,[],[]⟩ := by
    refine ⟨.nil,by simp,?_,?_,?_⟩
    · intro i walking
      cases walking
    · exact fun u v _ impossible => absurd impossible not_mem_nil
    · exact fun i impossible => absurd impossible not_mem_nil
  obtain ⟨final,bound,result,calm,-,visited⟩ := walkFrom_all (fun state calm i => (calm.walked i).mp)
    (walkFrom_calm pushes backwards starts) graph.nodes start
  refine ⟨final.nodeVec,bound,?_,calm.nodup,calm.closed,calm.within_,fun node => visited node (graph.all node)⟩
  intro fuel enough
  simp only [walkAll,result fuel enough]
  rfl

end

end Walk

section Modes

def ReachesEnd (graph : ComputeGraph Node) (node : Node) : Prop :=
  ∃ last, graph.getOutNodesSize last = 0 ∧ ReflTransGen graph.Followed node last

theorem rdfsTopologicalSorting_ends (distinctNames : ∀ u v, graph.name u = graph.name v → u = v) :
    ∃ order bound, (∀ fuel, bound ≤ fuel → rdfsTopologicalSorting graph fuel = some order) ∧ order.Nodup ∧
      ∀ node, node ∈ order ↔ ReachesEnd graph node := by
  have backwards : ∀ u v, graph.Followed u v → ReachesEnd graph v → ReachesEnd graph u := by
    rintro u v edge ⟨last,isLast,path⟩
    exact ⟨last,isLast,.head edge path⟩
  have starts : ∀ (status : Node → WalkStatus) (node : Node), decide (0 < graph.getOutNodesSize node) = false →
      ReachesEnd graph node := by
    intro _ node none_
    exact ⟨node,Nat.eq_zero_of_not_pos (of_decide_eq_false none_),.refl⟩
  obtain ⟨order,bound,result,nodup,closed,allowed,visited⟩ :=
    walkAll_ends (rdfsInputs_pushes distinctNames) backwards starts
  refine ⟨order,bound,result,nodup,fun node => ⟨allowed node,?_⟩⟩
  rintro ⟨last,isLast,path⟩
  have taken : last ∈ order := by
    rcases visited last with done | ⟨_,skip,_⟩
    · exact done
    · have more := of_decide_eq_true skip
      omega
  induction path using ReflTransGen.head_induction_on with
  | refl => exact taken
  | head edge _ ih => exact closed _ _ edge ih

theorem stableRdfsTopologicalSorting_ends {ids : Node → Nat} (distinct : ∀ u v, ids u = ids v → u = v) :
    ∃ order bound, (∀ fuel, bound ≤ fuel → stableRdfsTopologicalSorting graph ids fuel = some order) ∧ order.Nodup ∧
      ∀ node, node ∈ order := by
  have pushes : Pushes graph (stableInputs graph ids) := stableInputs_pushes distinct
  have starts : ∀ (status : Node → WalkStatus) (node : Node), decide (status node = .kWalked) = false → True :=
    fun _ _ _ => trivial
  obtain ⟨order,bound,result,nodup,_,_,visited⟩ := walkAll_ends pushes (fun _ _ _ _ => trivial) starts
  refine ⟨order,bound,result,nodup,?_⟩
  intro node
  rcases visited node with done | ⟨status,skip,walked⟩
  · exact done
  · exact walked node (of_decide_eq_true skip)

variable (graph) (mode : TopoSortingMode) (isMemPriority dfsReverse : Bool) (ids : Node → Nat)

def Rejects : Prop := ∃ bound, ∀ fuel, bound ≤ fuel →
  ∃ result, doTopologicalSorting graph mode isMemPriority dfsReverse ids fuel = some result ∧
    result = .error .graphFailed ∧ nodeListAfter graph result = graph.nodes

variable {graph mode isMemPriority dfsReverse ids}

theorem rejects_iff {order : List Node} {bound : Nat} (sorted : ∃ newIds, ∀ fuel, bound ≤ fuel →
      sortByMode graph mode isMemPriority dfsReverse ids fuel = some (order,newIds)) :
    Rejects graph mode isMemPriority dfsReverse ids ↔ order.length ≠ graph.nodes.length := by
  obtain ⟨newIds,sorted⟩ := sorted
  constructor
  · rintro ⟨bound',rejected⟩ same
    obtain ⟨result,sorting,failed,-⟩ := rejected (max bound bound') (le_max_right _ _)
    subst failed
    simp only [doTopologicalSorting,sorted _ (le_max_left bound bound'),bind_eq_bind,bind_some,
      if_neg (not_not.mpr same)] at sorting
    cases sorting
  · intro different
    refine ⟨bound,fun fuel enough => ⟨_,?_,rfl,rfl⟩⟩
    simp only [doTopologicalSorting,sorted fuel enough,bind_eq_bind,bind_some,if_pos different]

/-- A graph with a cycle is rejected by the modes that count edges, by reverse depth first just if some node has no end
behind it, and by the stable mode never. -/
theorem doTopologicalSorting_rejects_iff (graph : ComputeGraph Node) (cyclic : ¬Acyclic graph.Edge)
    (noLoopBack : ∀ node, graph.isNextIteration node = false)
    (distinctNames : ∀ u v, graph.name u = graph.name v → u = v) (mode : TopoSortingMode)
    (countable : mode.counts → ∀ node, (graph.inPeers node).length < twoPow32)
    (isMemPriority dfsReverse : Bool) (ids : Node → Nat) :
    Rejects graph mode isMemPriority dfsReverse ids ↔
      mode = .kBFS ∨ mode = .kDFS ∨ mode = .kRDFS ∧ ∃ node, ¬ReachesEnd graph node := by
  have : Fintype Node := graph.fintype
  -- all nodes in order would be a linear extension
  have missed : ∀ {order : List Node}, Taken graph.outPeers order → order.length ≠ graph.nodes.length := by
    intro order taken same
    exact cyclic (taken.extension ((length_eq_iff taken.nodup).mp same)).acyclic
  cases mode with
  | kBFS =>
    obtain ⟨order,bound,taken,-,result⟩ :=
      bfsTopologicalSorting_ends isMemPriority ⟨noLoopBack,distinctNames,countable (.inl rfl)⟩
    have sorted : ∃ newIds, ∀ fuel, bound ≤ fuel →
        sortByMode graph .kBFS isMemPriority dfsReverse ids fuel = some (order,newIds) :=
      ⟨_,fun fuel enough => by rw [sortByMode,result fuel enough]; rfl⟩
    rw [rejects_iff sorted]
    simpa using missed taken
  | kDFS =>
    obtain ⟨order,bound,taken,-,result⟩ :=
      dfsTopologicalSorting_ends isMemPriority dfsReverse ⟨noLoopBack,distinctNames,countable (.inr rfl)⟩
    have sorted : ∃ newIds, ∀ fuel, bound ≤ fuel →
        sortByMode graph .kDFS isMemPriority dfsReverse ids fuel = some (order,newIds) :=
      ⟨_,fun fuel enough => by rw [sortByMode,result fuel enough]; rfl⟩
    rw [rejects_iff sorted]
    simpa using missed taken
  | kRDFS =>
    obtain ⟨order,bound,result,nodup,members⟩ := rdfsTopologicalSorting_ends distinctNames
    have sorted : ∃ newIds, ∀ fuel, bound ≤ fuel →
        sortByMode graph .kRDFS isMemPriority dfsReverse ids fuel = some (order,newIds) :=
      ⟨_,fun fuel enough => by rw [sortByMode,result fuel enough]; rfl⟩
    rw [rejects_iff sorted,Ne,length_eq_iff nodup]
    simp [members]
  | kStableRDFS =>
    have distinct : ∀ u v, setIds graph.nodes ids u = setIds graph.nodes ids v → u = v := setIds_inj graph.nodup graph.all
    obtain ⟨order,bound,result,nodup,all⟩ := stableRdfsTopologicalSorting_ends distinct
    have sorted : ∃ newIds, ∀ fuel, bound ≤ fuel →
        sortByMode graph .kStableRDFS isMemPriority dfsReverse ids fuel = some (order,newIds) :=
      ⟨_,fun fuel enough => by rw [sortByMode,result fuel enough]; rfl⟩
    rw [rejects_iff sorted,Ne,length_eq_iff nodup]
    simp [all]

end Modes

def loopGraph : ComputeGraph Vertex where
  nodes := [.a,.b,.c]
  name node := match node with
    | .a => "a"
    | .b => "b"
    | .c => "c"
  isDataType _ := false
  isNextIteration _ := false
  isConst _ := false
  isVariable _ := false
  isIoData _ := false
  outputSizes _ := []
  inDataAnchors _ := []
  inControl node := if node = .b then [.a] else [.b]
  inDataToControl _ := []
  outDataAnchors _ := []
  outControl node := match node with
    | .a => [(.b,false)]
    | .b => [(.a,false),(.c,false)]
    | .c => []
  inputsOrder := []
  nodup := by decide
  all := by decide
  dataLinks := by decide
  dataToControlLinks := by decide
  controlLinks := by decide
  controlToDataLinks := by decide

theorem loopGraph_cyclic : ¬Acyclic loopGraph.Edge := by
  have there : loopGraph.Edge .a .b := mem_cons_self
  have back : loopGraph.Edge .b .a := mem_cons_self
  exact fun acyclic => acyclic .a (.tail (.single there) back)

theorem loopGraph_rejected : Rejects loopGraph .kDFS false false fun _ => 0 :=
  (doTopologicalSorting_rejects_iff loopGraph loopGraph_cyclic (fun _ => rfl) (by decide) .kDFS (fun _ => by decide) false
    false fun _ => 0).mpr (.inr (.inl rfl))

/-- Both reverse modes accept the graph, with node `b` in front of node `a`. -/
theorem loopGraph_accepted : ¬Acyclic loopGraph.Edge ∧ (∀ node, loopGraph.isNextIteration node = false) ∧
    (∀ u v, loopGraph.name u = loopGraph.name v → u = v) ∧
    (∃ ids, doTopologicalSorting loopGraph .kRDFS false false (fun _ => 0) 20 = some (.ok ([.b,.a,.c],ids))) ∧
    ∃ ids, doTopologicalSorting loopGraph .kStableRDFS false false (fun _ => 0) 20 = some (.ok ([.b,.a,.c],ids)) :=
  ⟨loopGraph_cyclic,fun _ => rfl,by decide,⟨_,rfl⟩,⟨_,rfl⟩⟩

end GraphEngine.Sorting
