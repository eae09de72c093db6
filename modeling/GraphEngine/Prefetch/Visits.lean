import Mathlib.Algebra.Order.BigOperators.Group.List
import GraphEngine.Lib.Outcome
import GraphEngine.Prefetch.Grouping

/-! The allocation as a sequence of visits: one for each prefetch node, with the calculation node it is placed for and its
place in the group. What every placement keeps holds after the whole run. -/

namespace GraphEngine.Prefetch
open Lib List
variable {Node : Type} {graph : Graph Node} {pool : BufferPool Node}

structure Visit (Node : Type) where
  calcNode : Node
  node : Node
  /-- The nodes of its group that come behind it. -/
  rest : List Node
  isFirst : Bool
  isLast : Bool
  deriving DecidableEq

/-- Who reads the tensor: the next node of the group, or else the calculation node. -/
def Visit.reader (visit : Visit Node) : Node := visit.rest.headD visit.calcNode

def groupVisits (calcNode : Node) (isLastGroup : Bool) : Bool → List Node → List (Visit Node)
  | _,[] => []
  | isFirst,node :: rest =>
    ⟨calcNode,node,rest,isFirst,isLastGroup && rest.isEmpty⟩ :: groupVisits calcNode isLastGroup false rest

def calcVisits (calcNode : Node) : List (List Node) → List (Visit Node)
  | [] => []
  | group :: groups => groupVisits calcNode groups.isEmpty true group ++ calcVisits calcNode groups

def visits (calcNodes : List Node) (peer : Node → List (List Node)) : List (Visit Node) :=
  calcNodes.flatMap fun calcNode => calcVisits calcNode (peer calcNode)

section Order
variable {calcNode : Node} {calcNodes : List Node} {peer : Node → List (List Node)}

theorem groupVisits_nodes (isLastGroup isFirst : Bool) (group : List Node) :
    (groupVisits calcNode isLastGroup isFirst group).map Visit.node = group := by
  induction group generalizing isFirst with
  | nil => rfl
  | cons node rest ih => simp [groupVisits,ih]

theorem calcVisits_nodes (groups : List (List Node)) : (calcVisits calcNode groups).map Visit.node = groups.flatten := by
  induction groups with
  | nil => rfl
  | cons group groups ih => simp [calcVisits,groupVisits_nodes,ih]

theorem visits_nodes : (visits calcNodes peer).map Visit.node = placeOrder calcNodes peer := by
  rw [visits,placeOrder,map_flatMap]
  simp [calcVisits_nodes]

variable {isLastGroup isFirst : Bool} {group : List Node} {visit : Visit Node} {groups : List (List Node)}
  {v w : Visit Node}

theorem mem_groupVisits (inside : visit ∈ groupVisits calcNode isLastGroup isFirst group) :
    visit.calcNode = calcNode ∧ (visit.node :: visit.rest) <:+ group := by
  induction group generalizing isFirst with
  | nil => cases inside
  | cons node rest ih =>
    rcases mem_cons.mp inside with rfl | later
    · exact ⟨rfl,suffix_refl _⟩
    · obtain ⟨isCalc,behind⟩ := ih later
      exact ⟨isCalc,behind.trans (suffix_cons node rest)⟩

theorem mem_calcVisits (inside : visit ∈ calcVisits calcNode groups) :
    visit.calcNode = calcNode ∧ ∃ group ∈ groups, (visit.node :: visit.rest) <:+ group := by
  induction groups with
  | nil => cases inside
  | cons group groups ih =>
    rcases mem_append.mp inside with here | later
    · obtain ⟨isCalc,behind⟩ := mem_groupVisits here
      exact ⟨isCalc,group,.head _,behind⟩
    · obtain ⟨isCalc,other,known,behind⟩ := ih later
      exact ⟨isCalc,other,.tail _ known,behind⟩

theorem mem_visits (inside : visit ∈ visits calcNodes peer) :
    visit.calcNode ∈ calcNodes ∧ ∃ group ∈ peer visit.calcNode, (visit.node :: visit.rest) <:+ group := by
  obtain ⟨calcNode,known,here⟩ := mem_flatMap.mp inside
  obtain ⟨rfl,rest⟩ := mem_calcVisits here
  exact ⟨known,rest⟩

theorem visits_placed (inside : visit ∈ visits calcNodes peer) :
    visit.calcNode ∈ calcNodes ∧ visit.node ∈ (peer visit.calcNode).flatten := by
  obtain ⟨isCalc,group,hasGroup,behind⟩ := mem_visits inside
  exact ⟨isCalc,mem_flatten.mpr ⟨group,hasGroup,behind.subset (.head _)⟩⟩

theorem groupVisits_last (before : Precedes (groupVisits calcNode isLastGroup isFirst group) v w) : v.isLast = false := by
  induction group generalizing isFirst with
  | nil => exact absurd before not_precedes_nil
  | cons node rest ih =>
    rcases precedes_cons.mp before with later | ⟨rfl,later⟩
    · exact ih later
    · cases rest with
      | nil => cases later
      | cons => simp

theorem groupVisits_not_last (inside : visit ∈ groupVisits calcNode false isFirst group) : visit.isLast = false := by
  induction group generalizing isFirst with
  | nil => cases inside
  | cons node rest ih =>
    rcases mem_cons.mp inside with rfl | later
    · rfl
    · exact ih later

theorem groupVisits_complete (calcNode : Node) (filled : group ≠ []) (isFirst : Bool) :
    ∃ visit ∈ groupVisits calcNode true isFirst group, visit.isLast = true := by
  induction group generalizing isFirst with
  | nil => exact absurd rfl filled
  | cons node rest ih =>
    cases rest with
    | nil => exact ⟨_,.head _,rfl⟩
    | cons next rest =>
      obtain ⟨visit,inside,isLast⟩ := ih (by simp) false
      exact ⟨visit,.tail _ inside,isLast⟩

theorem calcVisits_last (before : Precedes (calcVisits calcNode groups) v w) : v.isLast = false := by
  induction groups with
  | nil => exact absurd before not_precedes_nil
  | cons group groups ih =>
    rcases precedes_append.mp before with here | ⟨left,right⟩ | later
    · exact groupVisits_last here
    · have more : groups.isEmpty = false := by
        cases groups with
        | nil => cases right
        | cons => rfl
      rw [more] at left
      exact groupVisits_not_last left
    · exact ih later

theorem calcVisits_complete (nonempty : ∀ group ∈ groups, group ≠ []) (some_ : groups ≠ []) :
    ∃ visit ∈ calcVisits calcNode groups, visit.isLast = true := by
  induction groups with
  | nil => exact absurd rfl some_
  | cons group groups ih =>
    cases groups with
    | nil =>
      obtain ⟨visit,inside,isLast⟩ := groupVisits_complete calcNode (nonempty group (.head _)) true
      exact ⟨visit,mem_append_left _ inside,isLast⟩
    | cons next groups =>
      obtain ⟨visit,inside,isLast⟩ := ih (fun group known => nonempty group (.tail _ known)) (by simp)
      exact ⟨visit,mem_append_right _ inside,isLast⟩

theorem visits_order (before : Precedes (visits calcNodes peer) v w) :
    v.calcNode = w.calcNode ∧ v.isLast = false ∨ Precedes calcNodes v.calcNode w.calcNode := by
  rcases before.of_flatMap with ⟨calcNode,-,inside⟩ | ⟨p,q,ordered,left,right⟩
  · refine .inl ⟨?_,calcVisits_last inside⟩
    rw [(mem_calcVisits inside.left).1,(mem_calcVisits inside.right).1]
  · rw [(mem_calcVisits left).1,(mem_calcVisits right).1]
    exact .inr ordered

theorem visits_complete (nonempty : ∀ calcNode, ∀ group ∈ peer calcNode, group ≠ []) {done rest : List (Visit Node)}
    (split : visits calcNodes peer = done ++ visit :: rest) (nodup : (visits calcNodes peer).Nodup)
    (some_ : peer calcNode ≠ []) (before : Precedes calcNodes calcNode visit.calcNode) :
    ∃ last ∈ done, last.calcNode = calcNode ∧ last.isLast = true := by
  obtain ⟨last,inside,isLast⟩ := calcVisits_complete (nonempty calcNode) some_
  have here : visit ∈ calcVisits visit.calcNode (peer visit.calcNode) := by
    have member : visit ∈ visits calcNodes peer := by simp [split]
    obtain ⟨calcNode,-,here⟩ := mem_flatMap.mp member
    rwa [(mem_calcVisits here).1]
  have ordered : Precedes (visits calcNodes peer) last visit := before.flatMap inside here
  rw [split] at ordered nodup
  exact ⟨last,ordered.mem_front nodup,(mem_calcVisits inside).1,isLast⟩

/-- Visits that go through whole groups, from the nodes of the open group that are still to come to those that are left. -/
def Trails : List Node → List (Visit Node) → List Node → Prop
  | pending,[],left => pending = left
  | pending,visit :: later,left =>
    pending = (if visit.isFirst then [] else visit.node :: visit.rest) ∧ Trails visit.rest later left

section Trails
variable {pending middle left : List Node} {done later : List (Visit Node)}

theorem Trails.append (front : Trails pending done middle) (back : Trails middle later left) :
    Trails pending (done ++ later) left := by
  induction done generalizing pending with
  | nil =>
    cases front
    exact back
  | cons visit done ih => exact ⟨front.1,ih front.2⟩

theorem Trails.split (whole : Trails pending (done ++ later) left) :
    ∃ middle, Trails pending done middle ∧ Trails middle later left := by
  induction done generalizing pending with
  | nil => exact ⟨pending,rfl,whole⟩
  | cons visit done ih =>
    obtain ⟨middle,front,back⟩ := ih whole.2
    exact ⟨middle,⟨whole.1,front⟩,back⟩

theorem groupVisits_trails (isFirst : Bool) (group : List Node) :
    Trails (if isFirst then [] else group) (groupVisits calcNode isLastGroup isFirst group) [] := by
  induction group generalizing isFirst with
  | nil => exact ite_self []
  | cons node rest ih => exact ⟨rfl,ih false⟩

theorem calcVisits_trails : Trails [] (calcVisits calcNode groups) [] := by
  induction groups with
  | nil => rfl
  | cons group groups ih => exact (groupVisits_trails true group).append ih

theorem visits_trails : Trails [] (visits calcNodes peer) [] := by
  induction calcNodes with
  | nil => rfl
  | cons calcNode calcNodes ih => exact calcVisits_trails.append ih

end Trails

end Order

section Sizes

/-- What `GetMemorySize` gives, for a node for which it succeeds. -/
def memorySize (graph : Graph Node) (node : Node) : Int := (getMemorySize graph node).toOption.getD 0

def roomFor (graph : Graph Node) (nodes : List Node) : Int := (nodes.map (memorySize graph)).sum

def Visit.size (graph : Graph Node) (visit : Visit Node) : Int := memorySize graph visit.node

/-- The room for the node and the rest of its group. -/
def Visit.need (graph : Graph Node) (visit : Visit Node) : Int := roomFor graph (visit.node :: visit.rest)

def Sized (graph : Graph Node) : Prop := ∀ node size, graph.outputSize node = some size → 0 ≤ size

theorem roomFor_cons (node : Node) (nodes : List Node) :
    roomFor graph (node :: nodes) = memorySize graph node + roomFor graph nodes := List.sum_cons

theorem roomFor_nonneg {nodes : List Node} (positive : ∀ node ∈ nodes, 0 < memorySize graph node) : 0 ≤ roomFor graph nodes := by
  refine sum_nonneg fun size inside => ?_
  obtain ⟨node,known,rfl⟩ := mem_map.mp inside
  exact (positive node known).le

theorem getMemorySize_ok {node : Node} {size : Int} (ok : getMemorySize graph node = .ok size) :
    memorySize graph node = size ∧ (Sized graph → 0 < size) := by
  refine ⟨by rw [memorySize,ok]; rfl,fun sized => ?_⟩
  unfold getMemorySize at ok
  split at ok
  · cases ok
  · rename_i output known
    obtain ⟨_,-,ok⟩ := bind_ok ok
    obtain ⟨_,-,ok⟩ := bind_ok ok
    cases ok
    have nonneg := sized node output known
    have aligned : 0 ≤ alignMemSize output kBufferPoolMemAlignSize := by
      rw [alignMemSize]
      split
      · exact nonneg
      · refine Int.mul_nonneg (Int.tdiv_nonneg ?_ (by decide)) (by decide)
        simp only [kBufferPoolMemAlignSize]
        omega
    simp only [kBufferPoolMemAlignSize] at aligned ⊢
    omega

variable {calcTotal calcTotal' : Option Int} {groupTotal groupTotal' : Int}

theorem checkBufferPoolSize_total {poolSize size : Int} (ok : checkBufferPoolSize size poolSize calcTotal = .ok calcTotal') :
    calcTotal' = some (calcTotal.getD 0 + size) ∧ calcTotal.getD 0 + size ≤ poolSize := by
  cases calcTotal with
  | none =>
    simp only [checkBufferPoolSize] at ok
    obtain ⟨_,isTotal,ok⟩ := bind_ok ok
    cases isTotal
    obtain ⟨fits,ok⟩ := check_ok ok
    cases ok
    exact ⟨by simp,by simpa using fits⟩
  | some before =>
    simp only [checkBufferPoolSize] at ok
    obtain ⟨_,-,ok⟩ := bind_ok ok
    obtain ⟨_,isTotal,ok⟩ := bind_ok ok
    cases isTotal
    obtain ⟨fits,ok⟩ := check_ok ok
    cases ok
    exact ⟨rfl,by simpa using fits⟩

theorem measureGroup_spec {nodes : List Node} {totals : List Int}
    (ok : measureGroup graph pool nodes groupTotal calcTotal = .ok (totals,groupTotal',calcTotal')) :
    totals = nodes.map (memorySize graph) ∧ groupTotal' = groupTotal + roomFor graph nodes ∧
      calcTotal'.getD 0 = calcTotal.getD 0 + roomFor graph nodes ∧
      (Sized graph → (∀ node ∈ nodes, 0 < memorySize graph node) ∧ (nodes ≠ [] → calcTotal'.getD 0 ≤ pool.poolSize)) := by
  induction nodes generalizing groupTotal calcTotal totals with
  | nil =>
    cases ok
    simp [roomFor]
  | cons node nodes ih =>
    rw [measureGroup] at ok
    obtain ⟨size,measured,ok⟩ := bind_ok ok
    obtain ⟨_,-,ok⟩ := bind_ok ok
    obtain ⟨middle,checked,ok⟩ := bind_ok ok
    obtain ⟨⟨totals',_,_⟩,run,ok⟩ := bind_ok ok
    cases ok
    obtain ⟨rfl,positive⟩ := getMemorySize_ok measured
    obtain ⟨isMiddle,fits⟩ := checkBufferPoolSize_total checked
    have middleTotal : middle.getD 0 = calcTotal.getD 0 + memorySize graph node := by simp [isMiddle]
    obtain ⟨rfl,isTotal,isCalc,sizes⟩ := ih run
    rw [roomFor_cons]
    refine ⟨rfl,by omega,by omega,fun sized => ⟨?_,fun _ => ?_⟩⟩
    · exact forall_mem_cons.mpr ⟨positive sized,(sizes sized).1⟩
    · cases nodes with
      | nil =>
        cases run
        omega
      | cons => exact (sizes sized).2 (by simp)

end Sizes

section Runs
variable {all : List (Visit Node)} {Inv : List (Visit Node) → Placing Node → Prop} {placing placing' : Placing Node}

/-- What is measured before a node is placed: the room for its group, which fits into the pool if no size is negative. -/
structure Measured (graph : Graph Node) (pool : BufferPool Node) (visit : Visit Node) (groupTotal : Int) : Prop where
  total : visit.isFirst = true → groupTotal = visit.need graph
  fits : Sized graph → (∀ node ∈ visit.node :: visit.rest, 0 < memorySize graph node) ∧ visit.need graph ≤ pool.poolSize

def Kept (graph : Graph Node) (pool : BufferPool Node) (all : List (Visit Node))
    (Inv : List (Visit Node) → Placing Node → Prop) : Prop :=
  ∀ done visit rest placing placing' groupTotal, all = done ++ visit :: rest → Inv done placing →
    Measured graph pool visit groupTotal →
    allocateSpaceForBufferPoolNode graph pool visit.node visit.calcNode (visit.size graph) groupTotal visit.isLast visit.isFirst
      placing = .ok placing' → Inv (done ++ [visit]) placing'

variable {calcNode : Node} {done rest : List (Visit Node)} {calcTotal : Option Int} {calcNodes : List Node}
  {peer : Node → List (List Node)}

theorem placeGroup_run (kept : Kept graph pool all Inv) {groupTotal : Int} {isLastGroup isFirst : Bool} {nodes : List Node}
    (split : all = done ++ (groupVisits calcNode isLastGroup isFirst nodes ++ rest)) (inv : Inv done placing)
    (total : isFirst = true → groupTotal = roomFor graph nodes)
    (fits : Sized graph →
      (∀ node ∈ nodes, 0 < memorySize graph node) ∧ (nodes ≠ [] → roomFor graph nodes ≤ pool.poolSize))
    (ok : placeGroup graph pool calcNode groupTotal isLastGroup isFirst (nodes.map fun node => (node,memorySize graph node))
      placing = .ok placing') :
    Inv (done ++ groupVisits calcNode isLastGroup isFirst nodes) placing' := by
  induction nodes generalizing isFirst done placing with
  | nil =>
    cases ok
    simpa [groupVisits] using inv
  | cons node nodes ih =>
    rw [map_cons,placeGroup] at ok
    obtain ⟨middle,placed,ok⟩ := bind_ok ok
    rw [isEmpty_map] at placed
    simp only [groupVisits] at split ⊢
    have step := kept done _ _ placing middle groupTotal split inv
      ⟨total,fun sized => ⟨(fits sized).1,(fits sized).2 (cons_ne_nil _ _)⟩⟩ placed
    have run := ih (by rw [split]; simp) step (fun impossible => by cases impossible) (fun sized => ?_) ok
    · simpa using run
    · obtain ⟨positive,room⟩ := fits sized
      obtain ⟨first,others⟩ := forall_mem_cons.mp positive
      have whole := room (cons_ne_nil _ _)
      rw [roomFor_cons] at whole
      exact ⟨others,fun _ => by omega⟩

theorem placeCalcNode_run (kept : Kept graph pool all Inv) {groups : List (List Node)}
    (split : all = done ++ (calcVisits calcNode groups ++ rest)) (nonneg : Sized graph → 0 ≤ calcTotal.getD 0)
    (inv : Inv done placing) (ok : placeCalcNode graph pool calcNode groups calcTotal placing = .ok placing') :
    Inv (done ++ calcVisits calcNode groups) placing' := by
  induction groups generalizing calcTotal done placing with
  | nil =>
    cases ok
    simpa [calcVisits] using inv
  | cons group groups ih =>
    rw [placeCalcNode] at ok
    obtain ⟨⟨totals,groupTotal,calcTotal'⟩,measured,ok⟩ := bind_ok ok
    obtain ⟨middle,placed,ok⟩ := bind_ok ok
    obtain ⟨isTotals,isTotal,isCalc,sizes⟩ := measureGroup_spec measured
    rw [calcVisits,append_assoc] at split
    rw [isTotals,← map_prod_left_eq_zip] at placed
    have step := placeGroup_run kept split inv (fun _ => by omega) (fun sized => ?_) placed
    · have run := ih (by rw [split]; simp) (fun sized => ?_) step ok
      · simpa [calcVisits] using run
      · have before := nonneg sized
        have room := roomFor_nonneg (sizes sized).1
        omega
    · obtain ⟨positive,room⟩ := sizes sized
      have before := nonneg sized
      exact ⟨positive,fun some_ => by have bound := room some_; omega⟩

theorem placeCalcNodes_run (kept : Kept graph pool all Inv) (split : all = done ++ visits calcNodes peer) (inv : Inv done placing)
    (ok : placeCalcNodes graph pool peer calcNodes placing = .ok placing') : Inv all placing' := by
  induction calcNodes generalizing done placing with
  | nil =>
    cases ok
    simpa [split,visits] using inv
  | cons calcNode calcNodes ih =>
    rw [placeCalcNodes] at ok
    obtain ⟨middle,placed,ok⟩ := bind_ok ok
    have whole : all = done ++ (calcVisits calcNode (peer calcNode) ++ visits calcNodes peer) := split
    have step := placeCalcNode_run kept whole (fun _ => le_rfl) inv placed
    exact ih (by rw [whole,append_assoc]) step ok

theorem allocateSpaceInBufferPool_run {start members : Members Node}
    (kept : Kept graph pool (visits calcNodes peer) Inv) (inv : Inv [] (.start pool.poolSize start))
    (ok : allocateSpaceInBufferPool graph pool peer calcNodes start = .ok members) :
    ∃ placing : Placing Node, placing.members = members ∧ Inv (visits calcNodes peer) placing := by
  obtain ⟨placing,run,ok⟩ := bind_ok ok
  cases ok
  exact ⟨placing,rfl,placeCalcNodes_run kept rfl inv run⟩

end Runs

section Steps
variable {node calcNode : Node}

def ringNodes (items : List (BufferPoolNodeItem Node)) : List Node := items.filterMap BufferPoolNodeItem.node

theorem takeUpTheRest_nodes (poolSize : Int) (items : List (BufferPoolNodeItem Node)) :
    (takeUpTheRest poolSize items).map BufferPoolNodeItem.node = items.map BufferPoolNodeItem.node := by
  fun_induction takeUpTheRest poolSize items with
  | case1 => rfl
  | case2 => rfl
  | case3 item next items ih => exact congrArg (item.node :: ·) ih

variable {items : List (BufferPoolNodeItem Node)} {need : Int} {dependent : Option Node}
  {members members' : Members Node}

theorem ringNodes_suffix {items' : List (BufferPoolNodeItem Node)} (suffix : items <:+ items') :
    ringNodes items <:+ ringNodes items' := by
  obtain ⟨front,rfl⟩ := suffix
  exact ⟨ringNodes front,(filterMap_append).symm⟩

theorem turnBack_suffix (poolSize : Int) (items : List (BufferPoolNodeItem Node)) :
    ringNodes (turnBack poolSize items) <:+ ringNodes items := by
  have same : ringNodes (takeUpTheRest poolSize items) = ringNodes items := by
    have nodes := congrArg (List.filterMap id) (takeUpTheRest_nodes poolSize items)
    rwa [filterMap_map,filterMap_map] at nodes
  rw [← same]
  exact ringNodes_suffix ((dropWhile_suffix _).trans (drop_suffix _ _))

theorem getOffsetAndDependency_suffix {nextStart start : Int} {queue : List (BufferPoolNodeItem Node)}
    (ok : getOffsetAndDependency nextStart need pool items = .ok (start,dependent,queue)) :
    ringNodes queue <:+ ringNodes items ∧
      ∀ reader, dependent = some reader → ∃ first rest, ringNodes queue = first :: rest ∧
        pool.bufferNodeToCalc first = some reader := by
  have shape : ∃ left : List (BufferPoolNodeItem Node), ringNodes left <:+ ringNodes items ∧ queue <:+ left ∧
      dependent = (do
        let item ← queue.head?
        let poolNode ← item.node
        pool.bufferNodeToCalc poolNode) := by
    rw [getOffsetAndDependency] at ok
    obtain ⟨-,ok⟩ := check_ok ok
    by_cases turns : pool.poolSize < nextStart + need
    · rw [if_pos turns] at ok
      cases ok
      exact ⟨_,turnBack_suffix pool.poolSize items,dropWhile_suffix _,rfl⟩
    · rw [if_neg turns] at ok
      cases ok
      exact ⟨_,suffix_refl _,dropWhile_suffix _,rfl⟩
  obtain ⟨left,ring,dropped,rfl⟩ := shape
  refine ⟨(ringNodes_suffix dropped).trans ring,?_⟩
  intro reader isReader
  obtain ⟨item,isHead,isReader⟩ := Option.bind_eq_some_iff.mp isReader
  obtain ⟨first,named,reads⟩ := Option.bind_eq_some_iff.mp isReader
  obtain ⟨rest,rfl⟩ := head?_eq_some_iff.mp isHead
  exact ⟨first,ringNodes rest,filterMap_cons_some named,reads⟩

/-- The pair of nodes gets a control edge: both are in one graph, and on one stream or the first is on none. -/
def Joins (graph : Graph Node) (preNode currNode : Node) : Prop := graph.ownerGraph preNode = graph.ownerGraph currNode ∧
  (graph.streamLabel preNode = graph.streamLabel currNode ∨ graph.streamLabel preNode = "")

instance (preNode currNode : Node) : Decidable (Joins graph preNode currNode) := inferInstanceAs (Decidable (_ ∧ _))

theorem tryToFixNodeOrder_cases {preNode currNode : Node} {notChange : Bool}
    (ok : tryToFixNodeOrder graph preNode currNode members = .ok (members',notChange)) :
    ¬Joins graph preNode currNode ∧ members' = members ∧ notChange = true ∨ Joins graph preNode currNode ∧
      members' = { members with controlEdges := members.controlEdges ++ [(preNode,currNode)] } ∧ notChange = false := by
  unfold tryToFixNodeOrder at ok
  split at ok
  · rename_i joins
    cases ok
    exact .inr ⟨joins,rfl,rfl⟩
  · rename_i apart
    obtain ⟨-,ok⟩ := check_ok ok
    cases ok
    exact .inl ⟨apart,rfl,rfl⟩

def recvFromDependent (graph : Graph Node) (dependent node : Node) (members : Members Node) : Members Node :=
  let (logicEvent,queue,next) := generateEventId (graph.name dependent) members.memCtrlEvent members.logicEventNum
  { members with
    memCtrlEvent := queue
    logicEventNum := next
    nodeEventMultiplexing := members.nodeEventMultiplexing ++ [(node,.recvFrom dependent logicEvent)]
    streamCtrlEvent := members.streamCtrlEvent ++ [(graph.name node,logicEvent)]
    controlEdges := members.controlEdges ++ [(dependent,node)] }

theorem fixDependency_cases {isFirst : Bool} (ok : fixDependency graph isFirst dependent node members = .ok members') :
    (isFirst = true → ∀ reader, dependent = some reader → ¬Joins graph reader node) ∧ members' = members ∨
      isFirst = true ∧ ∃ reader, dependent = some reader ∧ Joins graph reader node ∧
        members' = recvFromDependent graph reader node members := by
  unfold fixDependency at ok
  split at ok
  · rename_i reader
    obtain ⟨⟨middle,notChange⟩,fixed,ok⟩ := bind_ok ok
    rcases tryToFixNodeOrder_cases fixed with ⟨apart,rfl,rfl⟩ | ⟨joins,rfl,rfl⟩
    · cases ok
      refine .inl ⟨fun _ other same => ?_,rfl⟩
      cases same
      exact apart
    · cases ok
      exact .inr ⟨rfl,reader,rfl,joins,rfl⟩
  · rename_i other
    cases ok
    exact .inl ⟨fun first reader same => absurd same (other reader first),rfl⟩

theorem fixBufferPoolNodeOrder_cases {preNode : Option Node}
    (ok : fixBufferPoolNodeOrder graph preNode node members = .ok members') :
    ∃ edges : List (Node × Node), members' = { members with controlEdges := members.controlEdges ++ edges } ∧
      ∀ a b, (a,b) ∈ edges ↔ b = node ∧ Joins graph a b ∧ preNode = some a := by
  cases preNode with
  | none =>
    cases ok
    exact ⟨[],by simp,by simp⟩
  | some preNode =>
    simp only [fixBufferPoolNodeOrder] at ok
    cases fixed : tryToFixNodeOrder graph preNode node members with
    | error status =>
      rw [fixed] at ok
      cases ok
    | ok result =>
      rw [fixed] at ok
      cases ok
      rcases tryToFixNodeOrder_cases fixed with ⟨apart,same,-⟩ | ⟨joins,same,-⟩
      · refine ⟨[],by simp [same],?_⟩
        rintro a b
        simp only [not_mem_nil,false_iff]
        rintro ⟨rfl,joins,isPre⟩
        cases isPre
        exact apart joins
      · refine ⟨[(preNode,node)],same,?_⟩
        rintro a b
        simp only [mem_singleton,Prod.mk.injEq]
        constructor
        · rintro ⟨rfl,rfl⟩
          exact ⟨rfl,joins,rfl⟩
        · rintro ⟨rfl,-,isPre⟩
          exact ⟨(Option.some.inj isPre).symm,rfl⟩

def afterSend (graph : Graph Node) (visit : Visit Node) (members : Members Node) : Members Node :=
  if visit.isLast then sendToCalcNode graph visit.node visit.calcNode members else members

theorem afterSend_edges (visit : Visit Node) (members : Members Node) :
    (afterSend graph visit members).controlEdges = members.controlEdges := by
  unfold afterSend
  split
  · rfl
  · rfl

theorem afterSend_offsets (visit : Visit Node) (members : Members Node) :
    (afterSend graph visit members).bufferNodeLogicalOffset = members.bufferNodeLogicalOffset := by
  unfold afterSend
  split
  · rfl
  · rfl

/-- What one placement does on any streams: the last input sends, the first one of a group may wait, and the node is ordered
behind the one before it. -/
structure Steps (graph : Graph Node) (pool : BufferPool Node) (visit : Visit Node) (groupTotal : Int)
    (placing placing' : Placing Node) (start : Int) (dependent : Option Node) (queue : List (BufferPoolNodeItem Node))
    (middle : Members Node) (edges : List (Node × Node)) : Prop where
  place : getOffsetAndDependency placing.nextStart (if visit.isFirst then groupTotal else visit.size graph) pool
    placing.nodeMemRangeInPool = .ok (start,dependent,queue)
  waits : (visit.isFirst = true → ∀ reader, dependent = some reader → ¬Joins graph reader visit.node) ∧
      middle = afterSend graph visit placing.members ∨ visit.isFirst = true ∧
    ∃ reader, dependent = some reader ∧ Joins graph reader visit.node ∧
      middle = recvFromDependent graph reader visit.node (afterSend graph visit placing.members)
  chained : ∀ a b, (a,b) ∈ edges ↔ b = visit.node ∧ Joins graph a b ∧ placing.preBufferPoolNode = some a
  placed : placing' = ⟨start + visit.size graph,some visit.node,
    queue ++ [⟨some visit.node,some visit.calcNode,placing.preBufferPoolNode,visit.size graph,start,
      start + visit.size graph,visit.isLast,visit.isFirst⟩],
    { middle with
      bufferNodeLogicalOffset := middle.bufferNodeLogicalOffset ++ [⟨visit.node,visit.size graph,start⟩]
      controlEdges := middle.controlEdges ++ edges }⟩

theorem allocateSpaceForBufferPoolNode_steps {visit : Visit Node} {groupTotal : Int} {placing placing' : Placing Node}
    (ok : allocateSpaceForBufferPoolNode graph pool visit.node visit.calcNode (visit.size graph) groupTotal visit.isLast
      visit.isFirst placing = .ok placing') :
    ∃ start dependent queue middle edges,
      Steps graph pool visit groupTotal placing placing' start dependent queue middle edges := by
  unfold allocateSpaceForBufferPoolNode at ok
  obtain ⟨⟨start,dependent,queue⟩,place,ok⟩ := bind_ok ok
  obtain ⟨middle,waits,ok⟩ := bind_ok ok
  obtain ⟨_,-,ok⟩ := bind_ok ok
  obtain ⟨members',ordered,ok⟩ := bind_ok ok
  cases ok
  obtain ⟨edges,rfl,known⟩ := fixBufferPoolNodeOrder_cases ordered
  exact ⟨start,dependent,queue,middle,edges,place,fixDependency_cases waits,known,rfl⟩

section
variable {visit : Visit Node} {groupTotal start : Int} {placing placing' : Placing Node} {queue : List (BufferPoolNodeItem Node)}
  {middle : Members Node} {edges : List (Node × Node)}
  (steps : Steps graph pool visit groupTotal placing placing' start dependent queue middle edges)
include steps

theorem Steps.ringNodes : ringNodes placing'.nodeMemRangeInPool = ringNodes queue ++ [visit.node] := by
  rw [steps.placed,Prefetch.ringNodes,filterMap_append]
  rfl

theorem Steps.offsets : placing'.members.bufferNodeLogicalOffset =
    placing.members.bufferNodeLogicalOffset ++ [⟨visit.node,visit.size graph,start⟩] := by
  rw [steps.placed]
  rcases steps.waits with ⟨-,same⟩ | ⟨-,reader,-,-,same⟩
  · rw [same,afterSend_offsets]
  · rw [same]
    simp only [recvFromDependent,afterSend_offsets]

theorem Steps.mem_edges {a b : Node} : (a,b) ∈ placing'.members.controlEdges ↔ (a,b) ∈ placing.members.controlEdges ∨
    b = visit.node ∧ Joins graph a b ∧
      (placing.preBufferPoolNode = some a ∨ visit.isFirst = true ∧ dependent = some a) := by
  rw [steps.placed]
  change (a,b) ∈ middle.controlEdges ++ edges ↔ _
  rw [mem_append,steps.chained]
  rcases steps.waits with ⟨apart,same⟩ | ⟨first,reader,rfl,joins,same⟩
  · rw [same,afterSend_edges]
    apply or_congr_right
    constructor
    · rintro ⟨node,joins,pre⟩
      exact ⟨node,joins,.inl pre⟩
    · rintro ⟨rfl,joins,pre | ⟨first,waits⟩⟩
      · exact ⟨rfl,joins,pre⟩
      · exact absurd joins (apart first a waits)
  · rw [same]
    simp only [recvFromDependent,afterSend_edges,mem_append,mem_singleton,Prod.mk.injEq,Option.some.injEq]
    constructor
    · rintro ((old | ⟨rfl,rfl⟩) | ⟨node,joins,pre⟩)
      · exact .inl old
      · exact .inr ⟨rfl,joins,.inr ⟨first,rfl⟩⟩
      · exact .inr ⟨node,joins,.inl pre⟩
    · rintro (old | ⟨node,joins,pre | ⟨-,rfl⟩⟩)
      · exact .inl (.inl old)
      · exact .inr ⟨node,joins,pre⟩
      · exact .inl (.inr ⟨rfl,node⟩)

end
end Steps
end GraphEngine.Prefetch
