import Mathlib.Algebra.Ring.Int.Defs
import GraphEngine.Lib.WhileLoop
import GraphEngine.Lib.SortedInsert

/-! Topological sorting of a compute graph: breadth first and depth first by counting edges, reverse depth first by an
explicit stack, and the step that moves nodes next to their first consumer. Nodes are linked by data edges between anchors,
by control edges, and by links between a data anchor and a control anchor, which counting edges follows and the lists of in-
and out-nodes leave out. -/

namespace GraphEngine.Sorting
open Lib

def twoPow32 : Nat := 4294967296
def twoPow64 : Nat := 18446744073709551616

structure ComputeGraph (Node : Type) [DecidableEq Node] where
  nodes : List Node
  name : Node → String
  /-- A data, input, receive or send node. -/
  isDataType : Node → Bool
  /-- A `NextIteration` or `RefNextIteration` node. -/
  isNextIteration : Node → Bool
  isConst : Node → Bool
  isVariable : Node → Bool
  /-- A data or placeholder node of this graph. -/
  isIoData : Node → Bool
  /-- The memory size of each output. -/
  outputSizes : Node → List Int
  /-- For each input anchor, the node of the data output that it is linked to and those of the control outputs. -/
  inDataAnchors : Node → List (Option Node × List Node)
  /-- The nodes whose control output is linked to the control input. -/
  inControl : Node → List Node
  /-- The nodes with a data output that is linked to the control input. -/
  inDataToControl : Node → List Node
  /-- For each output anchor, the nodes of its data inputs and those of its control inputs. -/
  outDataAnchors : Node → List (List Node × List Node)
  /-- The nodes behind the control output; the flag stands for a link to a data input. -/
  outControl : Node → List (Node × Bool)
  inputsOrder : List String
  nodup : nodes.Nodup
  all : ∀ node, node ∈ nodes
  dataLinks : ∀ u v, ((outDataAnchors u).flatMap Prod.fst).count v = ((inDataAnchors v).filterMap Prod.fst).count u
  dataToControlLinks : ∀ u v, ((outDataAnchors u).flatMap Prod.snd).count v = (inDataToControl v).count u
  controlLinks : ∀ u v, (outControl u).count (v,false) = (inControl v).count u
  controlToDataLinks : ∀ u v, (outControl u).count (v,true) = ((inDataAnchors v).flatMap Prod.snd).count u

inductive TopoSortingMode where
  | kBFS
  | kDFS
  | kRDFS
  | kStableRDFS
  deriving DecidableEq,Repr

inductive WalkStatus where
  | kNotWalked
  | kWalking
  | kWalked
  deriving DecidableEq,Repr

inductive GraphStatus where
  | graphFailed
  deriving DecidableEq,Repr

variable {Node : Type} [DecidableEq Node] (graph : ComputeGraph Node)

namespace ComputeGraph

/-- `GetInAllNodes`, and the same as pointers. -/
def inAllNodes (node : Node) : List Node := (graph.inDataAnchors node).filterMap Prod.fst ++ graph.inControl node

/-- `GetOutAllNodes`. -/
def outAllNodes (node : Node) : List Node :=
  (graph.outDataAnchors node).flatMap Prod.fst ++ ((graph.outControl node).filter (!·.2)).map Prod.fst

/-- The nodes behind all anchors that are linked to an input. -/
def inPeers (node : Node) : List Node :=
  (graph.inDataAnchors node).filterMap Prod.fst ++ (graph.inDataAnchors node).flatMap Prod.snd ++
    (graph.inControl node ++ graph.inDataToControl node)

/-- The nodes behind all anchors that are linked to an output. -/
def outPeers (node : Node) : List Node :=
  (graph.outDataAnchors node).flatMap (fun anchor => anchor.1 ++ anchor.2) ++ (graph.outControl node).map Prod.fst

def Edge (u v : Node) : Prop := v ∈ graph.outPeers u

/-- An edge between two data anchors or two control anchors. -/
def Followed (u v : Node) : Prop := v ∈ graph.outAllNodes u

def getOutDataNodesSize (node : Node) : Nat := ((graph.outDataAnchors node).flatMap Prod.fst).length % twoPow32

def getOutNodesSize (node : Node) : Nat := (graph.getOutDataNodesSize node + (graph.outControl node).length) % twoPow32

/-- The input anchors are counted one by one; the edge of a loop is taken back. The result is missing if the function
returns early. -/
def countInData : List (Option Node × List Node) → Nat → Option Nat
  | [],inEdgeSize => some inEdgeSize
  | (none,controls) :: anchors,inEdgeSize => countInData anchors (inEdgeSize + controls.length)
  | (some peer,controls) :: anchors,inEdgeSize =>
    let inEdgeSize := inEdgeSize + (1 + controls.length)
    if graph.isNextIteration peer then
      if inEdgeSize = 0 then none else countInData anchors (inEdgeSize - 1)
    else countInData anchors inEdgeSize

def getInEdgeSize (node : Node) : Nat :=
  match countInData graph (graph.inDataAnchors node) 0 with
  | none => 0
  | some inEdgeSize => inEdgeSize + (graph.inControl node ++ graph.inDataToControl node).length

def getNodeOutputRealSize (node : Node) : Int := (graph.outputSizes node).sum.bmod twoPow64

/-- `NodeCmp`: large outputs first, then by name. -/
def nodeCmp (lhs rhs : Node) : Bool :=
  if graph.getNodeOutputRealSize lhs = graph.getNodeOutputRealSize rhs then decide (graph.name rhs < graph.name lhs)
  else decide (graph.getNodeOutputRealSize rhs < graph.getNodeOutputRealSize lhs)

/-- `NodeOutInfo::operator<`. -/
def nodeOutInfoLess (lhs rhs : Node) : Bool :=
  if graph.getOutDataNodesSize lhs < graph.getOutDataNodesSize rhs then true
  else if graph.getOutDataNodesSize rhs < graph.getOutDataNodesSize lhs then false
  else if graph.getNodeOutputRealSize lhs < graph.getNodeOutputRealSize rhs then true
  else if graph.getNodeOutputRealSize rhs < graph.getNodeOutputRealSize lhs then false
  else decide (graph.name lhs < graph.name rhs)

end ComputeGraph

/-- `SetId` with the position, for all nodes of a list. -/
def setIds (nodes : List Node) (ids : Node → Nat) : Node → Nat :=
  nodes.zipIdx.foldl (fun ids entry => Function.update ids entry.1 entry.2) ids

/-! Counting down the edges. -/

abbrev InEdgeNum (Node : Type) := Node → Option Nat

structure Sources (Node : Type) where
  stack : List Node
  specNodeSize : Nat
  mapInEdgeNum : InEdgeNum Node

def sortNode (sources : Sources Node) (node : Node) : Sources Node :=
  let inEdgeNum := graph.getInEdgeSize node % twoPow32
  let mapInEdgeNum := Function.update sources.mapInEdgeNum node (some inEdgeNum)
  if inEdgeNum = 0 then
    if graph.isDataType node then
      ⟨sources.stack.take sources.specNodeSize ++ node :: sources.stack.drop sources.specNodeSize,sources.specNodeSize,
        mapInEdgeNum⟩
    else ⟨node :: sources.stack,sources.specNodeSize + 1,mapInEdgeNum⟩
  else { sources with mapInEdgeNum := mapInEdgeNum }

def swapAt (stack : List Node) (i j : Nat) : List Node :=
  match stack[i]?,stack[j]? with
  | some a,some b => (stack.set i b).set j a
  | _,_ => stack

def swapInputsFrom (i inxI : Nat) (stack : List Node) (j : Nat) : List Node :=
  match stack[j]? with
  | none => stack
  | some node =>
    if graph.name node ∈ graph.inputsOrder ∧ inxI < graph.inputsOrder.idxOf (graph.name node) then swapAt stack i j
    else stack

def swapInputs (stack : List Node) (i : Nat) : List Node :=
  match stack[i]? with
  | none => stack
  | some node =>
    if graph.name node ∈ graph.inputsOrder then
      (List.range' (i + 1) (stack.length - (i + 1))).foldl
        (swapInputsFrom graph i (graph.inputsOrder.idxOf (graph.name node))) stack
    else stack

def sortNodes : List Node × InEdgeNum Node :=
  let sources := graph.nodes.foldl (sortNode graph) ⟨[],0,fun _ => none⟩
  ((List.range sources.stack.length).foldl (swapInputs graph) sources.stack,sources.mapInEdgeNum)

/-- `TopoSortStack`: a priority map, a stack or a queue. -/
structure TopoSortStack (Node : Type) where
  isMemPriority : Bool
  isDfs : Bool
  isReverseDfs : Bool
  normalStack : List Node
  memPriorityStack : List Node

namespace TopoSortStack

def usesPriority (stack : TopoSortStack Node) : Bool := stack.isMemPriority && !stack.isReverseDfs

def pop (stack : TopoSortStack Node) : Option (Node × TopoSortStack Node) :=
  if stack.usesPriority then
    match stack.memPriorityStack with
    | [] => none
    | node :: rest => some (node,{ stack with memPriorityStack := rest })
  else
    match stack.normalStack.getLast? with
    | none => none
    | some node => some (node,{ stack with normalStack := stack.normalStack.dropLast })

def push (stack : TopoSortStack Node) (node : Node) : TopoSortStack Node :=
  if stack.usesPriority then
    { stack with memPriorityStack := setInsert graph.nodeOutInfoLess node stack.memPriorityStack }
  else if stack.isDfs then { stack with normalStack := stack.normalStack ++ [node] }
  else { stack with normalStack := node :: stack.normalStack }

def pushAll (stack : TopoSortStack Node) (nodes : List Node) : TopoSortStack Node := nodes.foldl (push graph) stack

end TopoSortStack

/-- One edge is used up. The numbers are 32 bits wide; the result says whether none is left. -/
def useEdge (mapInEdgeNum : InEdgeNum Node) (peer : Node) : InEdgeNum Node × Bool :=
  match mapInEdgeNum peer with
  | none => (mapInEdgeNum,false)
  | some count =>
    let count := (count + (twoPow32 - 1)) % twoPow32
    (Function.update mapInEdgeNum peer (some count),count == 0)

def getOutNodes : List Node → InEdgeNum Node → InEdgeNum Node × List Node
  | [],mapInEdgeNum => (mapInEdgeNum,[])
  | peer :: peers,mapInEdgeNum =>
    let (mapInEdgeNum,ready) := useEdge mapInEdgeNum peer
    let (mapInEdgeNum,outNodes) := getOutNodes peers mapInEdgeNum
    (mapInEdgeNum,if ready then peer :: outNodes else outNodes)

structure DfsState (Node : Type) where
  stack : TopoSortStack Node
  mapInEdgeNum : InEdgeNum Node
  nodeVec : List Node

def pushAnchor (reverse : Bool) (state : DfsState Node) (peers : List Node) : DfsState Node :=
  let (mapInEdgeNum,outNodes) := getOutNodes peers state.mapInEdgeNum
  { state with
    stack := state.stack.pushAll graph (if reverse then outNodes.reverse else outNodes)
    mapInEdgeNum := mapInEdgeNum }

/-- The data inputs behind an output anchor, then its control inputs. -/
def pushOutAnchor (reverse : Bool) (state : DfsState Node) (anchor : List Node × List Node) : DfsState Node :=
  pushAnchor graph reverse (pushAnchor graph reverse state anchor.1) anchor.2

def dfsStep (reverse : Bool) (state : DfsState Node) : Option (DfsState Node) :=
  match state.stack.pop with
  | none => none
  | some (node,stack) =>
    let state := { state with stack := stack,nodeVec := state.nodeVec ++ [node] }
    let state := (graph.outDataAnchors node).foldl (pushOutAnchor graph reverse) state
    some (pushAnchor graph reverse state ((graph.outControl node).map Prod.fst))

def dfsTopologicalSorting (isMemPriority reverse : Bool) (fuel : Nat) : Option (List Node) := do
  let (stack,mapInEdgeNum) := sortNodes graph
  let start := TopoSortStack.pushAll graph ⟨isMemPriority,true,reverse,[],[]⟩ stack
  let final ← whileLoop (dfsStep graph reverse) fuel ⟨start,mapInEdgeNum,[]⟩
  some final.nodeVec

structure BfsState (Node : Type) where
  stackInput : List Node
  stack : TopoSortStack Node
  mapInEdgeNum : InEdgeNum Node
  nodeVec : List Node

/-- `CollectBreadthOutNode`: the map is ordered by name. -/
def collectBreadthOutNode (node : Node) (mapInEdgeNum : InEdgeNum Node) : InEdgeNum Node × List Node :=
  let (mapInEdgeNum,outNodes) := getOutNodes (graph.outPeers node) mapInEdgeNum
  (mapInEdgeNum,setOf (fun lhs rhs => decide (graph.name lhs < graph.name rhs)) outNodes)

def bfsTake (state : BfsState Node) : Option (Node × List Node × TopoSortStack Node) :=
  match state.stack.pop with
  | some (node,stack) => some (node,state.stackInput,stack)
  | none =>
    match state.stackInput.getLast? with
    | none => none
    | some node => some (node,state.stackInput.dropLast,state.stack)

def bfsStep (state : BfsState Node) : Option (BfsState Node) :=
  match bfsTake state with
  | none => none
  | some (node,stackInput,stack) =>
    let (mapInEdgeNum,breadthNodeMap) := collectBreadthOutNode graph node state.mapInEdgeNum
    some ⟨stackInput,stack.pushAll graph breadthNodeMap,mapInEdgeNum,state.nodeVec ++ [node]⟩

def bfsTopologicalSorting (isMemPriority : Bool) (fuel : Nat) : Option (List Node) := do
  let (stackInput,mapInEdgeNum) := sortNodes graph
  let final ← whileLoop (bfsStep graph) fuel ⟨stackInput,⟨isMemPriority,false,false,[],[]⟩,mapInEdgeNum,[]⟩
  some final.nodeVec

/-! Reverse depth first. -/

structure WalkState (Node : Type) where
  status : Node → WalkStatus
  stack : List Node
  nodeVec : List Node

/-- The inputs that are pushed when a node is entered; the last one of the set gets on top. -/
abbrev InputOrder (Node : Type) := (Node → WalkStatus) → Node → List Node

def rdfsInputs : InputOrder Node := fun _ current => (setOf graph.nodeCmp (graph.inAllNodes current)).reverse

def stableInputs (ids : Node → Nat) : InputOrder Node := fun status current =>
  (setOf (fun lhs rhs => decide (ids rhs < ids lhs))
    ((graph.inAllNodes current).filter fun input => status input = .kNotWalked)).reverse

def walkStep (inputs : InputOrder Node) (state : WalkState Node) : Option (WalkState Node) :=
  match state.stack with
  | [] => none
  | current :: stack =>
    match state.status current with
    | .kNotWalked =>
      let status := Function.update state.status current .kWalking
      some ⟨status,inputs status current ++ current :: stack,state.nodeVec⟩
    | .kWalking => some ⟨Function.update state.status current .kWalked,stack,state.nodeVec ++ [current]⟩
    | .kWalked => some { state with stack := stack }

def walkFrom (inputs : InputOrder Node) (skips : (Node → WalkStatus) → Node → Bool) (fuel : Nat)
    (state : WalkState Node) (node : Node) : Option (WalkState Node) :=
  if skips state.status node then some state
  else whileLoop (walkStep inputs) fuel { state with stack := [node] }

def walkAll (inputs : InputOrder Node) (skips : (Node → WalkStatus) → Node → Bool) (fuel : Nat) : Option (List Node) := do
  let final ← graph.nodes.foldlM (walkFrom inputs skips fuel) ⟨fun _ => .kNotWalked,[],[]⟩
  some final.nodeVec

def rdfsTopologicalSorting (fuel : Nat) : Option (List Node) :=
  walkAll graph (rdfsInputs graph) (fun _ node => decide (0 < graph.getOutNodesSize node)) fuel

def stableRdfsTopologicalSorting (ids : Node → Nat) (fuel : Nat) : Option (List Node) :=
  walkAll graph (stableInputs graph ids) (fun status node => decide (status node = .kWalked)) fuel

/-! Delaying nodes. -/

def inputIsLongLifeTimeNode (node : Node) : Bool :=
  let peers := (graph.inDataAnchors node).filterMap Prod.fst
  !peers.isEmpty && peers.all fun peer => graph.isConst peer || graph.isVariable peer || graph.isIoData peer

def getOutNodeIndex (ids : Node → Nat) (nodes : List Node) : Option (Nat × Nat) :=
  match nodes.head?,nodes.getLast? with
  | some front,some node =>
    if nodes.length = 1 ∧ inputIsLongLifeTimeNode graph front = false then none
    else if nodes.length ≠ 1 ∧ (graph.inDataAnchors node).length ≠ 1 then none
    else
      let outs := graph.outAllNodes node
      if outs = [] then none
      else some (outs.foldl (fun minIndex out => if minIndex = 0 ∨ ids out < minIndex then ids out else minIndex) 0,outs.length)
  | _,_ => none

abbrev DelayNodes (Node : Type) := List (Bool × List Node)

def delayNode (ids : Node → Nat) (state : DelayNodes Node × Nat) (i : Nat) : DelayNodes Node × Nat :=
  match state.1[i]? with
  | some (true,nodes) =>
    match getOutNodeIndex graph ids nodes with
    | some (delayToIndex,outCount) =>
      match state.1[delayToIndex]? with
      | some (canDelay,others) =>
        if i + 1 < delayToIndex then
          ((state.1.set delayToIndex (if 1 < outCount then false else canDelay,nodes ++ others)).set i (true,[]),state.2 + 1)
        else state
      | none => state
    | none => state
  | _ => state

def delayTopoSort (ids : Node → Nat) (nodes : List Node) : List Node × (Node → Nat) :=
  let ids := setIds nodes ids
  let (delayNodes,delayNodeCount) :=
    (List.range nodes.length).foldl (delayNode graph ids) (nodes.map fun node => (true,[node]),0)
  (if 0 < delayNodeCount then delayNodes.flatMap Prod.snd else nodes,ids)

/-! The whole sorting. -/

/-- The strategy of a mode. The ids are those of the nodes in the graph; strategies that need them set them. -/
def sortByMode (mode : TopoSortingMode) (isMemPriority dfsReverse : Bool) (ids : Node → Nat) (fuel : Nat) :
    Option (List Node × (Node → Nat)) :=
  let positions := setIds graph.nodes ids
  match mode with
  | .kBFS => (bfsTopologicalSorting graph isMemPriority fuel).map (·,if isMemPriority then positions else ids)
  | .kDFS => (dfsTopologicalSorting graph isMemPriority dfsReverse fuel).map (·,if isMemPriority then positions else ids)
  | .kRDFS => (rdfsTopologicalSorting graph fuel).map (·,positions)
  | .kStableRDFS => (stableRdfsTopologicalSorting graph positions fuel).map (·,positions)

def doTopologicalSorting (mode : TopoSortingMode) (isMemPriority dfsReverse : Bool) (ids : Node → Nat) (fuel : Nat) :
    Option (Except GraphStatus (List Node × (Node → Nat))) := do
  let (nodeVec,ids) ← sortByMode graph mode isMemPriority dfsReverse ids fuel
  if nodeVec.length ≠ graph.nodes.length then some (.error .graphFailed)
  else
    let (nodeVec,ids) :=
      if (isMemPriority ∧ mode ≠ .kStableRDFS) ∨ mode = .kRDFS then delayTopoSort graph ids nodeVec else (nodeVec,ids)
    some (.ok (nodeVec,setIds nodeVec ids))

/-- The node list of the graph after the sorting: it is cleared and filled again only once the count was checked. -/
def nodeListAfter : Except GraphStatus (List Node × (Node → Nat)) → List Node
  | .ok (nodeVec,_) => nodeVec
  | .error _ => graph.nodes

end GraphEngine.Sorting
