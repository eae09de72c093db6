import Mathlib.Algebra.Ring.Int.Defs

/-! The buffer pool memory pass: prefetch nodes are grouped by the calculation node they feed, get their space in a ring, and
wait for the reader of the space they take over. Log texts are not modelled. -/

namespace GraphEngine.Prefetch

/-- What the pass returns when it fails. Signed overflow has no defined result in the source, so such a run has none
here. -/
inductive Status where
  | internalError
  | undefined
  deriving DecidableEq,Repr

structure Graph (Node : Type) where
  name : Node → String
  ownerGraph : Node → Nat
  streamLabel : Node → String
  id : Node → Int
  /-- The size of the only output tensor, if it is known. -/
  outputSize : Node → Option Int
  /-- The node has a buffer pool id and a buffer pool size. -/
  isBufferNode : Node → Bool

structure BufferPool (Node : Type) where
  poolSize : Int
  bufferNodeToCalc : Node → Option Node

inductive EventMark (Node : Type) where
  | sendTo (calcNode : Node) (logicEvent : Nat)
  | recvFrom (dependentNode : Node) (logicEvent : Nat)
  deriving DecidableEq

structure BufferPoolNodeItem (Node : Type) where
  node : Option Node
  outCalcNode : Option Node
  preBufferPoolNode : Option Node
  totalSize : Int
  offsetStart : Int
  offsetEnd : Int
  isLastInput : Bool
  isFirstInGroup : Bool

structure LogicalOffset (Node : Type) where
  node : Node
  totalSize : Int
  offsetStart : Int
  deriving DecidableEq

/-- The members that the allocation changes, and the control edges that it adds to the graph. -/
structure Members (Node : Type) where
  logicEventNum : Nat
  memCtrlEvent : List (String × Nat)
  streamCtrlEvent : List (String × Nat)
  nodeEventMultiplexing : List (Node × EventMark Node)
  bufferNodeLogicalOffset : List (LogicalOffset Node)
  controlEdges : List (Node × Node)
  deriving DecidableEq

def Members.start {Node : Type} (logicEventNum : Nat) : Members Node := ⟨logicEventNum,[],[],[],[],[]⟩

def int64Min : Int := -9223372036854775808
def int64Max : Int := 9223372036854775807
def twoPow32 : Nat := 4294967296
def kBufferPoolMemAlignSize : Int := 512

/-- `FMK_INT64_ADDCHECK`. -/
def int64AddCheck (a b : Int) : Except Status Unit :=
  if int64Min ≤ a + b ∧ a + b ≤ int64Max then .ok () else .error .internalError

def alignMemSize (memSize alignSize : Int) : Int :=
  if memSize ≤ 0 then memSize else (memSize + alignSize - 1).tdiv alignSize * alignSize

section Allocation
variable {Node : Type} (graph : Graph Node)

def getMemorySize (node : Node) : Except Status Int := do
  match graph.outputSize node with
  | none => .error .internalError
  | some size =>
    int64AddCheck size kBufferPoolMemAlignSize
    let aligned := alignMemSize size kBufferPoolMemAlignSize
    int64AddCheck aligned (kBufferPoolMemAlignSize + kBufferPoolMemAlignSize)
    .ok (kBufferPoolMemAlignSize + aligned + kBufferPoolMemAlignSize)

def checkBufferPoolSize (totalSize bufferPoolSize : Int) (calcTotalSize : Option Int) : Except Status (Option Int) := do
  let total ← match calcTotalSize with
    | none => .ok totalSize
    | some before => do
      int64AddCheck before totalSize
      .ok (before + totalSize)
  if bufferPoolSize < total then .error .internalError else .ok (some total)

def tryToFixNodeOrder (preNode currNode : Node) (members : Members Node) : Except Status (Members Node × Bool) :=
  if graph.ownerGraph preNode = graph.ownerGraph currNode ∧
      (graph.streamLabel preNode = graph.streamLabel currNode ∨ graph.streamLabel preNode = "") then
    .ok ({ members with controlEdges := members.controlEdges ++ [(preNode,currNode)] },false)
  else if graph.id currNode < graph.id preNode then .error .internalError
  else .ok (members,true)

def generateEventId (nodeName : String) (eventQueue : List (String × Nat)) (logicEventNum : Nat) :
    Nat × List (String × Nat) × Nat :=
  match eventQueue with
  | [] => (logicEventNum,[],(logicEventNum + 1) % twoPow32)
  | (owner,logicEvent) :: rest =>
    if owner ≠ nodeName then (logicEvent,rest,logicEventNum)
    else (logicEventNum,eventQueue,(logicEventNum + 1) % twoPow32)

def fixTheTimingOfDependentNodes (dependentCalcNode currPoolNode : Node) (members : Members Node) :
    Except Status (Members Node) := do
  let (members,notChange) ← tryToFixNodeOrder graph dependentCalcNode currPoolNode members
  if notChange then .ok members
  else
    let (logicEvent,queue,next) := generateEventId (graph.name dependentCalcNode) members.memCtrlEvent members.logicEventNum
    .ok { members with
      memCtrlEvent := queue
      logicEventNum := next
      nodeEventMultiplexing := members.nodeEventMultiplexing ++ [(currPoolNode,.recvFrom dependentCalcNode logicEvent)]
      streamCtrlEvent := members.streamCtrlEvent ++ [(graph.name currPoolNode,logicEvent)] }

/-- `nodes_in_buffer.back().offset_end = buffer_pool_size`. -/
def takeUpTheRest (bufferPoolSize : Int) : List (BufferPoolNodeItem Node) → List (BufferPoolNodeItem Node)
  | [] => []
  | [item] => [{ item with offsetEnd := bufferPoolSize }]
  | item :: next :: items => item :: takeUpTheRest bufferPoolSize (next :: items)

def turnBack (bufferPoolSize : Int) (nodesInBuffer : List (BufferPoolNodeItem Node)) : List (BufferPoolNodeItem Node) :=
  ((takeUpTheRest bufferPoolSize nodesInBuffer).drop 1).dropWhile fun item => decide (item.offsetStart ≠ 0)

def getOffsetAndDependency (nextStart totalMemSize : Int) (pool : BufferPool Node)
    (nodesInBuffer : List (BufferPoolNodeItem Node)) :
    Except Status (Int × Option Node × List (BufferPoolNodeItem Node)) :=
  if nextStart + totalMemSize < int64Min ∨ int64Max < nextStart + totalMemSize then .error .undefined
  else
    let (nextStart,nodesInBuffer) :=
      if pool.poolSize < nextStart + totalMemSize then (0,turnBack pool.poolSize nodesInBuffer) else (nextStart,nodesInBuffer)
    let nodesInBuffer := nodesInBuffer.dropWhile fun item => decide (¬nextStart + totalMemSize ≤ item.offsetEnd)
    let dependentCalcNode := do
      let item ← nodesInBuffer.head?
      let poolNode ← item.node
      pool.bufferNodeToCalc poolNode
    .ok (nextStart,dependentCalcNode,nodesInBuffer)

def sendToCalcNode (bufferNode calcNode : Node) (members : Members Node) : Members Node :=
  let (logicEvent,queue,next) := generateEventId (graph.name bufferNode) members.streamCtrlEvent members.logicEventNum
  { members with
    streamCtrlEvent := queue
    logicEventNum := next
    nodeEventMultiplexing := members.nodeEventMultiplexing ++ [(bufferNode,.sendTo calcNode logicEvent)]
    memCtrlEvent := members.memCtrlEvent ++ [(graph.name calcNode,logicEvent)] }

structure Placing (Node : Type) where
  nextStart : Int
  preBufferPoolNode : Option Node
  nodeMemRangeInPool : List (BufferPoolNodeItem Node)
  members : Members Node

def fixDependency (isFirstInGroup : Bool) (dependentCalcNode : Option Node) (bufferNode : Node) (members : Members Node) :
    Except Status (Members Node) :=
  match isFirstInGroup,dependentCalcNode with
  | true,some dependent => fixTheTimingOfDependentNodes graph dependent bufferNode members
  | _,_ => .ok members

def fixBufferPoolNodeOrder (preBufferPoolNode : Option Node) (bufferNode : Node) (members : Members Node) :
    Except Status (Members Node) :=
  match preBufferPoolNode with
  | none => .ok members
  | some preNode => (tryToFixNodeOrder graph preNode bufferNode members).map Prod.fst

def allocateSpaceForBufferPoolNode (pool : BufferPool Node) (bufferNode calcNode : Node)
    (totalSize groupTotalMemSize : Int) (isLastInput isFirstInGroup : Bool) (placing : Placing Node) :
    Except Status (Placing Node) := do
  let members := if isLastInput then sendToCalcNode graph bufferNode calcNode placing.members else placing.members
  let memSizeNeeded := if isFirstInGroup then groupTotalMemSize else totalSize
  let (nextStart,dependentCalcNode,queue) ←
    getOffsetAndDependency placing.nextStart memSizeNeeded pool placing.nodeMemRangeInPool
  let members ← fixDependency graph isFirstInGroup dependentCalcNode bufferNode members
  let members := { members with
    bufferNodeLogicalOffset := members.bufferNodeLogicalOffset ++ [⟨bufferNode,totalSize,nextStart⟩] }
  int64AddCheck nextStart totalSize
  let item : BufferPoolNodeItem Node :=
    ⟨some bufferNode,some calcNode,placing.preBufferPoolNode,totalSize,nextStart,nextStart + totalSize,isLastInput,isFirstInGroup⟩
  let members ← fixBufferPoolNodeOrder graph placing.preBufferPoolNode bufferNode members
  .ok ⟨nextStart + totalSize,some bufferNode,queue ++ [item],members⟩

/-- The first loop over a group: the sizes, their sum and the running total of the calculation node. -/
def measureGroup (pool : BufferPool Node) : List Node → Int → Option Int → Except Status (List Int × Int × Option Int)
  | [],groupTotalMemSize,calcTotalSize => .ok ([],groupTotalMemSize,calcTotalSize)
  | node :: nodes,groupTotalMemSize,calcTotalSize => do
    let totalSize ← getMemorySize graph node
    int64AddCheck groupTotalMemSize totalSize
    let calcTotalSize ← checkBufferPoolSize totalSize pool.poolSize calcTotalSize
    let (totalSizes,groupTotalMemSize,calcTotalSize) ← measureGroup pool nodes (groupTotalMemSize + totalSize) calcTotalSize
    .ok (totalSize :: totalSizes,groupTotalMemSize,calcTotalSize)

def placeGroup (pool : BufferPool Node) (calcNode : Node) (groupTotalMemSize : Int) (isLastGroup : Bool) :
    Bool → List (Node × Int) → Placing Node → Except Status (Placing Node)
  | _,[],placing => .ok placing
  | isFirstInGroup,(node,totalSize) :: rest,placing => do
    let placing ← allocateSpaceForBufferPoolNode graph pool node calcNode totalSize groupTotalMemSize
      (isLastGroup && rest.isEmpty) isFirstInGroup placing
    placeGroup pool calcNode groupTotalMemSize isLastGroup false rest placing

def placeCalcNode (pool : BufferPool Node) (calcNode : Node) :
    List (List Node) → Option Int → Placing Node → Except Status (Placing Node)
  | [],_,placing => .ok placing
  | group :: groups,calcTotalSize,placing => do
    let (totalSizes,groupTotalMemSize,calcTotalSize) ← measureGroup graph pool group 0 calcTotalSize
    let placing ← placeGroup graph pool calcNode groupTotalMemSize groups.isEmpty true (group.zip totalSizes) placing
    placeCalcNode pool calcNode groups calcTotalSize placing

def placeCalcNodes (pool : BufferPool Node) (peerBufferNodeItems : Node → List (List Node)) :
    List Node → Placing Node → Except Status (Placing Node)
  | [],placing => .ok placing
  | calcNode :: calcNodes,placing => do
    let placing ← placeCalcNode graph pool calcNode (peerBufferNodeItems calcNode) none placing
    placeCalcNodes pool peerBufferNodeItems calcNodes placing

def Placing.start (bufferPoolSize : Int) (members : Members Node) : Placing Node :=
  ⟨0,none,[⟨none,none,none,0,0,bufferPoolSize,true,true⟩],members⟩

def allocateSpaceInBufferPool (pool : BufferPool Node) (peerBufferNodeItems : Node → List (List Node))
    (calcNodesInPool : List Node) (members : Members Node) : Except Status (Members Node) := do
  let placing ← placeCalcNodes graph pool peerBufferNodeItems calcNodesInPool (.start pool.poolSize members)
  .ok placing.members

end Allocation

section Grouping
variable {Node : Type} [DecidableEq Node] (graph : Graph Node)

structure Grouping (Node : Type) where
  allParentBufferNodeItems : Node → Option (List Node)
  peerBufferNodeItems : Node → List (List Node)

/-- One input of a calculation node. `emplace` keeps an entry that is there. -/
def groupInput (calcNode input : Node) (grouping : Grouping Node) : Grouping Node :=
  let parents := (grouping.allParentBufferNodeItems input).getD [] ++ [input]
  let all := Function.update grouping.allParentBufferNodeItems input (some parents)
  if graph.isBufferNode calcNode then
    { grouping with
      allParentBufferNodeItems := if (all calcNode).isSome then all else Function.update all calcNode (some parents) }
  else
    ⟨all,Function.update grouping.peerBufferNodeItems calcNode (grouping.peerBufferNodeItems calcNode ++ [parents])⟩

def groupCalcNode (bufferNodeItems : Node → List Node) (grouping : Grouping Node) (calcNode : Node) : Grouping Node :=
  (bufferNodeItems calcNode).foldl (fun grouping input => groupInput graph calcNode input grouping) grouping

def doGroupBufferPoolNodes (calcNodes : List Node) (bufferNodeItems : Node → List Node) :
    List Node × (Node → List (List Node)) :=
  (calcNodes.filter (fun calcNode => !graph.isBufferNode calcNode),
    (calcNodes.foldl (groupCalcNode graph bufferNodeItems) ⟨fun _ => none,fun _ => []⟩).peerBufferNodeItems)

end Grouping
end GraphEngine.Prefetch
