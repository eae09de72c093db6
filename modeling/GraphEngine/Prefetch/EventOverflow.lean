import GraphEngine.Prefetch.EventRuns

/-! The event ids of the pool are unambiguous as long as the pass marks no more than 2 ^ 32 uses. The ids come from a counter
of 32 bits: with one more prefetch node the last gets the id of the first. -/

namespace GraphEngine.Prefetch
open Lib Relation Function List

section Main
variable {Node : Type} [DecidableEq Node]

/-- Event ids are unambiguous in every execution of a pool without chains, if the pass leaves the graph acyclic and the
counter does not wrap. -/
theorem prefetch_events_unambiguous (graph : Graph Node) (pool : BufferPool Node) (calcNodes : List Node)
    (bufferNodeItems : Node → List Node) (collected : Collected graph pool calcNodes bufferNodeItems)
    (noChain : NoChain graph pool) (edge : Node → Node → Prop)
    (feeds : ∀ node reader, pool.bufferNodeToCalc node = some reader → TransGen edge node reader)
    (logicEventNum : Nat) (range : logicEventNum < twoPow32) (members : Members Node)
    (succeeds : allocateSpaceInBufferPool graph pool (doGroupBufferPoolNodes graph calcNodes bufferNodeItems).2
      (doGroupBufferPoolNodes graph calcNodes bufferNodeItems).1 (.start logicEventNum) = .ok members)
    (acyclic : Acyclic (Rewired edge members)) (few : members.nodeEventMultiplexing.length ≤ twoPow32) :
    Unambiguous (doGroupBufferPoolNodes graph calcNodes bufferNodeItems).1 members := by
  have served := doGroup_served collected rfl
  have noOwnWait : NoOwnWait (doGroupBufferPoolNodes graph calcNodes bufferNodeItems).1
      (doGroupBufferPoolNodes graph calcNodes bufferNodeItems).2 members := by
    intro calcNode known node placed own
    obtain ⟨group,hasGroup,inside⟩ := mem_flatten.mp placed
    have path : TransGen edge node calcNode :=
      Feeds.path (fun node _ reader reads => feeds node reader reads) (served.isGroup calcNode group hasGroup).feeds inside
    exact acyclic node ((WithEdges.of_path path).tail (.inr own))
  obtain ⟨placed,mem,stream,tracked⟩ := allocateSpaceInBufferPool_tracked noChain served range succeeds noOwnWait few
  refine unambiguous_of_chains placed ?_ tracked.ledger.chains ?_
  · refine nodup_append'.mpr ⟨served.orderNodup,served.nodup,?_⟩
    intro node isPlaced isListed
    exact served.not_placed isListed isPlaced
  · intro use known
    obtain ⟨visit,isVisit,isNode,mark⟩ := tracked.issued use known
    refine ⟨?_,?_⟩
    · rw [← visits_nodes,← isNode]
      exact mem_map_of_mem isVisit
    · split at mark
      · exact mark.1 ▸ (mem_visits isVisit).1
      · exact mark.left

end Main

/-- The calculation node `reader i` reads the prefetch node `prefetch i`. -/
inductive FloodNode where
  | prefetch (i : Nat)
  | reader (i : Nat)
  deriving DecidableEq,Repr

open FloodNode

def floodGraph : Graph FloodNode where
  name node := match node with
    | .prefetch i => "prefetch" ++ toString i
    | .reader i => "reader" ++ toString i
  ownerGraph _ := 0
  streamLabel _ := ""
  id _ := 0
  outputSize _ := some 512
  isBufferNode node := match node with
    | .prefetch _ => true
    | .reader _ => false

def floodReader : FloodNode → Option FloodNode
  | .prefetch i => some (.reader i)
  | .reader _ => none

def floodPool (room : Nat) : BufferPool FloodNode := ⟨1536 * room,floodReader⟩

def floodItems : FloodNode → List FloodNode
  | .prefetch _ => []
  | .reader i => [.prefetch i]

def floodCalcs (n : Nat) : List FloodNode := (List.range n).map .reader

def floodEdge (node next : FloodNode) : Prop := floodReader node = some next

def floodMark (i : Nat) : FloodNode × EventMark FloodNode := (.prefetch i,.sendTo (.reader i) (i % twoPow32))

def floodMembers (n : Nat) : Members FloodNode where
  logicEventNum := n % twoPow32
  memCtrlEvent := (List.range n).map fun i => (floodGraph.name (.reader i),i % twoPow32)
  streamCtrlEvent := []
  nodeEventMultiplexing := (List.range n).map floodMark
  bufferNodeLogicalOffset := (List.range n).map fun i => ⟨.prefetch i,1536,1536 * i⟩
  controlEdges := (List.range (n - 1)).map fun i => (.prefetch i,.prefetch (i + 1))

section Grouping

theorem flood_collected (room n : Nat) : Collected floodGraph (floodPool room) (floodCalcs n) floodItems := by
  refine ⟨nodup_range.map (fun _ _ same => reader.inj same),?_,?_,?_⟩
  · intro calcNode _
    cases calcNode <;> simp [floodItems]
  all_goals
    intro calcNode _ input inside
    cases calcNode with
    | prefetch i => cases inside
    | reader i =>
      rw [mem_singleton.mp inside]
      rfl

theorem flood_noChain (room : Nat) : NoChain floodGraph (floodPool room) := by
  intro node reader reads
  cases node with
  | prefetch i =>
    cases reads
    rfl
  | reader i => cases reads

structure FloodGrouped (n : Nat) (grouping : Grouping FloodNode) : Prop where
  parents : ∀ i, n ≤ i → grouping.allParentBufferNodeItems (.prefetch i) = none
  groups : ∀ i, grouping.peerBufferNodeItems (.reader i) = if i < n then [[.prefetch i]] else []

theorem flood_grouped (n : Nat) :
    FloodGrouped n ((floodCalcs n).foldl (groupCalcNode floodGraph floodItems) ⟨fun _ => none,fun _ => []⟩) := by
  induction n with
  | zero => exact ⟨fun _ _ => rfl,fun _ => rfl⟩
  | succ n ih =>
    rw [floodCalcs,range_succ,map_append,foldl_append]
    change FloodGrouped (n + 1) (groupCalcNode floodGraph floodItems _ (.reader n))
    rw [floodCalcs] at ih
    generalize ((range n).map reader).foldl _ _ = grouping at ih ⊢
    have step : groupCalcNode floodGraph floodItems grouping (.reader n) =
        ⟨update grouping.allParentBufferNodeItems (.prefetch n) (some [.prefetch n]),
          update grouping.peerBufferNodeItems (.reader n) [[.prefetch n]]⟩ := by
      simp [groupCalcNode,floodItems,groupInput,floodGraph,ih.parents n le_rfl,ih.groups n]
    rw [step]
    refine ⟨?_,?_⟩
    · intro i later
      have other : prefetch i ≠ .prefetch n := by simp only [ne_eq,prefetch.injEq]; omega
      exact (update_of_ne other _ _).trans (ih.parents i (by omega))
    · intro i
      by_cases same : i = n
      · simp [same]
      · have other : reader i ≠ .reader n := by simpa using same
        refine ((update_of_ne other _ _).trans (ih.groups i)).trans (if_congr ?_ rfl rfl)
        omega

theorem flood_calcs (n : Nat) : (doGroupBufferPoolNodes floodGraph (floodCalcs n) floodItems).1 = floodCalcs n := by
  rw [doGroupBufferPoolNodes,filter_eq_self]
  intro calcNode known
  obtain ⟨i,-,rfl⟩ := mem_map.mp known
  rfl

end Grouping

section Placing

def floodPlacing (room k : Nat) : Placing FloodNode where
  nextStart := 1536 * k
  preBufferPoolNode := match k with
    | 0 => none
    | k + 1 => some (.prefetch k)
  nodeMemRangeInPool := ⟨none,none,none,0,0,1536 * room,true,true⟩ :: (List.range k).map fun i =>
    ⟨some (.prefetch i),some (.reader i),match i with | 0 => none | i + 1 => some (.prefetch i),1536,1536 * i,
      1536 * i + 1536,true,true⟩
  members := floodMembers k

variable {room k n : Nat}

theorem flood_measure (fits : 0 < room) (node : FloodNode) :
    measureGroup floodGraph (floodPool room) [node] 0 none = .ok ([1536],1536,some 1536) := by
  have size : getMemorySize floodGraph node = .ok 1536 := rfl
  have total : int64AddCheck 0 1536 = .ok () := by decide
  have enough : ¬(floodPool room).poolSize < 1536 := by
    simp only [floodPool]
    omega
  simp only [measureGroup,checkBufferPoolSize,size,total,bind,Except.bind,enough,if_false]
  decide

theorem flood_room (fits : k < room) (range : (1536 * room : Int) ≤ int64Max) (items : List (BufferPoolNodeItem FloodNode)) :
    getOffsetAndDependency (1536 * k) 1536 (floodPool room) (⟨none,none,none,0,0,1536 * room,true,true⟩ :: items) =
      .ok (1536 * k,none,⟨none,none,none,0,0,1536 * room,true,true⟩ :: items) := by
  simp only [int64Max] at range
  rw [getOffsetAndDependency,if_neg (by simp only [int64Min,int64Max]; omega)]
  have stays : ¬(floodPool room).poolSize < 1536 * (k : Int) + 1536 := by
    simp only [floodPool]
    omega
  rw [if_neg stays]
  dsimp only
  rw [dropWhile_cons_of_neg (by simp; omega)]
  rfl

theorem flood_added (fits : k < room) (range : (1536 * room : Int) ≤ int64Max) : int64AddCheck (1536 * k) 1536 = .ok () := by
  unfold int64AddCheck
  rw [if_pos]
  simp only [int64Max] at range
  simp only [int64Min,int64Max]
  omega

theorem flood_send (k : Nat) : sendToCalcNode floodGraph (.prefetch k) (.reader k) (floodMembers k) =
    { floodMembers (k + 1) with
      bufferNodeLogicalOffset := (floodMembers k).bufferNodeLogicalOffset
      controlEdges := (floodMembers k).controlEdges } := by
  have next : (k % twoPow32 + 1) % twoPow32 = (k + 1) % twoPow32 := Nat.mod_add_mod k twoPow32 1
  simp only [sendToCalcNode,floodMembers,generateEventId,next,range_succ,map_append,map_cons,map_nil,
    floodMark]

def floodLink : Nat → List (FloodNode × FloodNode)
  | 0 => []
  | k + 1 => [(.prefetch k,.prefetch (k + 1))]

theorem flood_order (room k : Nat) (members : Members FloodNode) :
    fixBufferPoolNodeOrder floodGraph (floodPlacing room k).preBufferPoolNode (.prefetch k) members =
      .ok { members with controlEdges := members.controlEdges ++ floodLink k } := by
  cases k with
  | zero => simp [floodPlacing,fixBufferPoolNodeOrder,floodLink]
  | succ k => simp [floodPlacing,fixBufferPoolNodeOrder,floodLink,tryToFixNodeOrder,floodGraph,Except.map]

theorem flood_edges (k : Nat) : (floodMembers (k + 1)).controlEdges = (floodMembers k).controlEdges ++ floodLink k := by
  cases k with
  | zero => rfl
  | succ k => simp [floodMembers,range_succ,floodLink]

theorem allocate_free {Node : Type} {graph : Graph Node} {pool : BufferPool Node} {node calcNode : Node} {start size : Int}
    {placing : Placing Node} {queue : List (BufferPoolNodeItem Node)} {members : Members Node}
    (place : getOffsetAndDependency placing.nextStart size pool placing.nodeMemRangeInPool = .ok (start,none,queue))
    (added : int64AddCheck start size = .ok ()) (ordered : fixBufferPoolNodeOrder graph placing.preBufferPoolNode node
      { sendToCalcNode graph node calcNode placing.members with
        bufferNodeLogicalOffset := (sendToCalcNode graph node calcNode placing.members).bufferNodeLogicalOffset ++
          [⟨node,size,start⟩] } = .ok members) :
    allocateSpaceForBufferPoolNode graph pool node calcNode size size true true placing =
      .ok ⟨start + size,some node,
        queue ++ [⟨some node,some calcNode,placing.preBufferPoolNode,size,start,start + size,true,true⟩],members⟩ := by
  simp only [allocateSpaceForBufferPoolNode,if_true,place,ok_bind,fixDependency,added,ordered]

theorem flood_allocate (fits : k < room) (range : (1536 * room : Int) ≤ int64Max) :
    allocateSpaceForBufferPoolNode floodGraph (floodPool room) (.prefetch k) (.reader k) 1536 1536 true true
      (floodPlacing room k) = .ok (floodPlacing room (k + 1)) := by
  have start : (1536 * k + 1536 : Int) = 1536 * (k + 1 : Nat) := by omega
  have place : getOffsetAndDependency (floodPlacing room k).nextStart 1536 (floodPool room)
      (floodPlacing room k).nodeMemRangeInPool = .ok (1536 * k,none,(floodPlacing room k).nodeMemRangeInPool) :=
    flood_room fits range _
  refine (allocate_free place (flood_added fits range) (flood_order room k _)).trans ?_
  have members : (floodPlacing room k).members = floodMembers k := rfl
  rw [members,flood_send]
  dsimp only
  rw [← flood_edges]
  simp only [floodPlacing,floodMembers,range_succ,map_append,map_cons,map_nil,start,cons_append]

theorem flood_place (fits : k < room) (range : (1536 * room : Int) ≤ int64Max) :
    placeCalcNode floodGraph (floodPool room) (.reader k) [[.prefetch k]] none (floodPlacing room k) =
      .ok (floodPlacing room (k + 1)) := by
  have positive : 0 < room := by omega
  simp only [placeCalcNode,flood_measure positive,ok_bind,zip_cons_cons,zip_nil_left,placeGroup,isEmpty_nil,
    Bool.and_self,flood_allocate fits range]

theorem flood_run (range : (1536 * room : Int) ≤ int64Max) {peer : FloodNode → List (List FloodNode)}
    (groups : ∀ i < room, peer (.reader i) = [[.prefetch i]]) (fits : k + n ≤ room) :
    placeCalcNodes floodGraph (floodPool room) peer ((range' k n).map .reader) (floodPlacing room k) =
      .ok (floodPlacing room (k + n)) := by
  induction n generalizing k with
  | zero => rfl
  | succ n ih =>
    rw [range'_succ,map_cons,placeCalcNodes,groups k (by omega),flood_place (by omega) range,ok_bind,
      ih (by omega),show k + 1 + n = k + (n + 1) by omega]

theorem flood_succeeds (range : (1536 * n : Int) ≤ int64Max) :
    allocateSpaceInBufferPool floodGraph (floodPool n) (doGroupBufferPoolNodes floodGraph (floodCalcs n) floodItems).2
      (doGroupBufferPoolNodes floodGraph (floodCalcs n) floodItems).1 (.start 0) = .ok (floodMembers n) := by
  have groups : ∀ i < n, (doGroupBufferPoolNodes floodGraph (floodCalcs n) floodItems).2 (.reader i) = [[.prefetch i]] := by
    intro i less
    exact ((flood_grouped n).groups i).trans (if_pos less)
  have run := flood_run range groups (zero_add n).le
  rw [← range_eq_range'] at run
  rw [flood_calcs,allocateSpaceInBufferPool]
  have start : Placing.start (floodPool n).poolSize (.start 0) = floodPlacing n 0 := rfl
  rw [start]
  change (placeCalcNodes floodGraph (floodPool n) _ ((List.range n).map .reader) _ >>= _) = _
  rw [run,ok_bind,zero_add]
  rfl

end Placing

section Wrapped

def floodRank : FloodNode → Nat
  | .prefetch i => 2 * i
  | .reader i => 2 * i + 1

theorem flood_acyclic (n : Nat) : Acyclic (Rewired floodEdge (floodMembers n)) := by
  refine acyclic_of_rank floodRank ?_
  intro a b step
  rcases step with step | step
  · cases a with
    | prefetch i =>
      cases step
      simp [floodRank]
    | reader i => cases step
  · obtain ⟨i,-,same⟩ := mem_map.mp step
    cases same
    simp only [floodRank]
    omega

variable {n i m : Nat}

theorem range_filter_eq (less : i < n) : (range n).filter (fun j => j = i) = [i] := by
  induction n with
  | zero => omega
  | succ n ih =>
    rw [range_succ,filter_append]
    by_cases last : i = n
    · have none_ : (range n).filter (fun j => j = i) = [] := by
        rw [filter_eq_nil_iff]
        intro j known
        have bound := mem_range.mp known
        simp only [decide_eq_true_eq]
        omega
      rw [none_,filter_cons_of_pos (by simp [last]),last]
      rfl
    · rw [ih (by omega),filter_cons_of_neg (by simpa using Ne.symm last)]
      rfl

theorem flood_ops (less : i < n) : nodeOps ((range n).map floodMark) (.prefetch i) = [.send (floodMark i)] := by
  have received : ((range n).map floodMark).filter (fun use => receiver use = .prefetch i) = [] := by
    rw [filter_eq_nil_iff]
    intro use known
    obtain ⟨j,-,rfl⟩ := mem_map.mp known
    simp [receiver,floodMark,EventMark.calcNode]
  have sent : ((range n).map floodMark).filter (fun use => sender use = .prefetch i) = [floodMark i] := by
    have same : ((fun use => decide (sender use = .prefetch i)) ∘ floodMark) = fun j => decide (j = i) := by
      funext j
      simp [sender,floodMark]
    rw [filter_map,same,range_filter_eq less]
    rfl
  rw [nodeOps,received,sent]
  rfl

theorem flood_stream (n : Nat) : prefetchStream (floodMembers n) = ((range n).map floodMark).map .send := by
  have placed : (floodMembers n).placed = (range n).map .prefetch := by
    simp [Members.placed,floodMembers]
  rw [prefetchStream,placed,flatMap_map]
  have each : ∀ i ∈ range n, nodeOps (floodMembers n).nodeEventMultiplexing (.prefetch i) = [.send (floodMark i)] := by
    intro i known
    exact flood_ops (mem_range.mp known)
  rw [flatMap_congr each,List.map_map,← flatMap_pure_eq_map]
  rfl

/-- The last prefetch node sends the id of the first one again while the calculation nodes have done nothing. -/
theorem flood_ambiguous (modulus : m = twoPow32) (calcNodes : List FloodNode) :
    ¬Unambiguous calcNodes (floodMembers (m + 1)) := by
  intro unambiguous
  have positive : 0 < m := by
    rw [modulus]
    decide
  have stream : prefetchStream (floodMembers (m + 1)) = ((range m).map floodMark).map .send ++ [.send (floodMark m)] := by
    rw [flood_stream,range_succ,map_append,map_append]
    rfl
  have run : EventRun (prefetchStream (floodMembers (m + 1))) (calcStream calcNodes (floodMembers (m + 1)))
      [.send (floodMark m)] (calcStream calcNodes (floodMembers (m + 1))) ([] ++ ((range m).map floodMark).map .send) := by
    refine EventRun.sends _ ?_
    rw [← stream]
    exact .start
  have first : floodMark 0 ∈ (range m).map floodMark := mem_map_of_mem (mem_range.mpr positive)
  have event : eventId (floodMark 0) = eventId (floodMark m) := by
    simp [eventId,floodMark,EventMark.event,modulus]
  have waited := unambiguous.passed _ _ _ run (floodMark m) (.inl rfl) (floodMark 0) (by simpa using first) event
  simp at waited

def FloodFails (n : Nat) : Prop :=
  Collected floodGraph (floodPool n) (floodCalcs n) floodItems ∧ NoChain floodGraph (floodPool n) ∧
    allocateSpaceInBufferPool floodGraph (floodPool n) (doGroupBufferPoolNodes floodGraph (floodCalcs n) floodItems).2
      (doGroupBufferPoolNodes floodGraph (floodCalcs n) floodItems).1 (.start 0) = .ok (floodMembers n) ∧
    Acyclic (Rewired floodEdge (floodMembers n)) ∧
    ¬Unambiguous (doGroupBufferPoolNodes floodGraph (floodCalcs n) floodItems).1 (floodMembers n)

theorem flood_fails (modulus : m = twoPow32) : FloodFails (m + 1) := by
  refine ⟨flood_collected _ _,flood_noChain _,flood_succeeds ?_,flood_acyclic _,flood_ambiguous modulus _⟩
  simp only [modulus,twoPow32,int64Max]
  omega

/-- In a pool of 6597069768192 bytes 2 ^ 32 + 1 tensors find room. No prefetch node waits, and the last one sends the id 0
before the first calculation node has waited for it. -/
theorem wrapped_counter_ambiguous : FloodFails (twoPow32 + 1) := flood_fails rfl

def slotMembers : Members FloodNode where
  logicEventNum := 4
  memCtrlEvent := [("reader1",1),("reader2",2),("reader3",3)]
  streamCtrlEvent := [("prefetch3",0)]
  nodeEventMultiplexing := [(.prefetch 0,.sendTo (.reader 0) 0),(.prefetch 1,.sendTo (.reader 1) 1),
    (.prefetch 2,.sendTo (.reader 2) 2),(.prefetch 2,.recvFrom (.reader 0) 3),(.prefetch 3,.sendTo (.reader 3) 3),
    (.prefetch 3,.recvFrom (.reader 1) 0)]
  bufferNodeLogicalOffset := [⟨.prefetch 0,1536,0⟩,⟨.prefetch 1,1536,1536⟩,⟨.prefetch 2,1536,0⟩,⟨.prefetch 3,1536,1536⟩]
  controlEdges := [(.prefetch 0,.prefetch 1),(.reader 0,.prefetch 2),(.prefetch 1,.prefetch 2),(.reader 1,.prefetch 3),
    (.prefetch 2,.prefetch 3)]

def slotRank : FloodNode → Nat
  | .prefetch i => 2 * i
  | .reader i => 2 * i + 3

theorem slots_unambiguous : allocateSpaceInBufferPool floodGraph (floodPool 2)
      (doGroupBufferPoolNodes floodGraph (floodCalcs 4) floodItems).2
      (doGroupBufferPoolNodes floodGraph (floodCalcs 4) floodItems).1 (.start 0) = .ok slotMembers ∧
    Unambiguous (doGroupBufferPoolNodes floodGraph (floodCalcs 4) floodItems).1 slotMembers := by
  have succeeds : allocateSpaceInBufferPool floodGraph (floodPool 2)
      (doGroupBufferPoolNodes floodGraph (floodCalcs 4) floodItems).2
      (doGroupBufferPoolNodes floodGraph (floodCalcs 4) floodItems).1 (.start 0) = .ok slotMembers := by decide +kernel
  refine ⟨succeeds,prefetch_events_unambiguous floodGraph (floodPool 2) (floodCalcs 4) floodItems (flood_collected 2 4)
    (flood_noChain 2) floodEdge (fun _ _ reads => .single reads) 0 (by decide) slotMembers succeeds ?_ (by decide)⟩
  refine acyclic_of_rank slotRank ?_
  intro a b step
  rcases step with step | step
  · cases a with
    | prefetch i =>
      cases step
      simp only [slotRank]
      omega
    | reader i => cases step
  · have all : ∀ pair ∈ slotMembers.controlEdges, slotRank pair.1 < slotRank pair.2 := by decide
    exact all (a,b) step

end Wrapped
end GraphEngine.Prefetch
