import Mathlib.Algebra.BigOperators.Group.List.Basic

/-! The edge records of a fast graph's node. Each data output and the two control directions have a vector that only grows;
an erased edge leaves a null entry. An edge stores the position of its records in 32 bits. -/

namespace GraphEngine.FastGraph

inductive DirectionType where
  | kDirectionInType
  | kDirectionOutType
  deriving DecidableEq,Repr

inductive GraphStatus where
  | success
  | failed
  | notChanged
  deriving DecidableEq,Repr

def kControlEdgeIndex : Int32 := -1

/-- The conversion to `size_t`, which is also made when a vector is indexed. -/
def sizeT (index : Int32) : Nat := (index.toInt % 2 ^ 64).toNat

structure FastEdge (Node : Type) where
  src : Option Node := none
  dst : Option Node := none
  srcOutput : Int32 := -1
  dstInput : Int32 := -1
  inEdgeIndex : Int32 := -1
  outEdgeIndex : Int32 := -1

/-- The counters of a node, with those of `out_data_edges_info_`. -/
structure EdgeCounts where
  inDataEdgesCount : Nat
  inControlEdgeCount : Nat
  outControlEdgesCount : Nat
  totalNum : Nat
  perEdgesNum : List Nat
  deriving DecidableEq,Repr

/-- `UpdateDataForIoNumChange` gives the vectors the sizes of the last three fields. -/
structure FastNode (Edge : Type) where
  dataInNum : Nat
  dataOutNum : Nat
  inDataEdges : List (Option Edge)
  inControlEdges : List (Option Edge)
  outControlEdges : List (Option Edge)
  outDataEdges : List (List (Option Edge))
  counts : EdgeCounts
  inData_size : inDataEdges.length = dataInNum
  outData_size : outDataEdges.length = dataOutNum
  perEdges_size : counts.perEdgesNum.length = dataOutNum

variable {Node Edge : Type} [DecidableEq Node] [DecidableEq Edge]

namespace FastNode

/-- `Init` and `Reset`. -/
def init (dataInNum dataOutNum : Nat) : FastNode Edge where
  dataInNum := dataInNum
  dataOutNum := dataOutNum
  inDataEdges := List.replicate dataInNum none
  inControlEdges := []
  outControlEdges := []
  outDataEdges := List.replicate dataOutNum []
  counts := ⟨0,0,0,0,List.replicate dataOutNum 0⟩
  inData_size := List.length_replicate
  outData_size := List.length_replicate
  perEdges_size := List.length_replicate

variable (node : FastNode Edge)

def checkDataIndexIsValid (index : Int32) : DirectionType → Bool
  | .kDirectionOutType => 0 ≤ index.toInt && index.toInt < (Int32.ofNat node.dataOutNum).toInt
  | .kDirectionInType => 0 ≤ index.toInt && index.toInt < (Int32.ofNat node.dataInNum).toInt

def setInControl (vector : List (Option Edge)) (count : Nat) : FastNode Edge :=
  { node with inControlEdges := vector,counts := { node.counts with inControlEdgeCount := count } }

def setOutControl (vector : List (Option Edge)) (count : Nat) : FastNode Edge :=
  { node with outControlEdges := vector,counts := { node.counts with outControlEdgesCount := count } }

def setInData (index : Int32) (entry : Option Edge) (count : Nat) : FastNode Edge :=
  { node with
    inDataEdges := node.inDataEdges.set (sizeT index) entry
    counts := { node.counts with inDataEdgesCount := count }
    inData_size := by rw [List.length_set]; exact node.inData_size }

def setOutData (index : Int32) (vector : List (Option Edge)) (total count : Nat) :
    FastNode Edge :=
  { node with
    outDataEdges := node.outDataEdges.set (sizeT index) vector
    counts := { node.counts with totalNum := total,perEdgesNum := node.counts.perEdgesNum.set (sizeT index) count }
    outData_size := by rw [List.length_set]; exact node.outData_size
    perEdges_size := by simp only [List.length_set]; exact node.perEdges_size }

def outDataVector (index : Int32) : List (Option Edge) := node.outDataEdges.getD (sizeT index) []

def perEdges (index : Int32) : Nat := node.counts.perEdgesNum.getD (sizeT index) 0

end FastNode

def setInIndex (objects : Edge → FastEdge Node) (edge : Edge) (index : Int32) : Edge → FastEdge Node :=
  Function.update objects edge { objects edge with inEdgeIndex := index }

def setOutIndex (objects : Edge → FastEdge Node) (edge : Edge) (index : Int32) : Edge → FastEdge Node :=
  Function.update objects edge { objects edge with outEdgeIndex := index }

namespace FastNode

variable (node : FastNode Edge) (objects : Edge → FastEdge Node)

def recordInControlEdge (edge : Edge) :
    GraphStatus × FastNode Edge × (Edge → FastEdge Node) :=
  (.success,node.setInControl (node.inControlEdges ++ [some edge]) (node.counts.inControlEdgeCount + 1),
    setInIndex objects edge (Int32.ofNat node.inControlEdges.length))

def recordOutControlEdge (edge : Edge) :
    GraphStatus × FastNode Edge × (Edge → FastEdge Node) :=
  (.success,node.setOutControl (node.outControlEdges ++ [some edge]) (node.counts.outControlEdgesCount + 1),
    setOutIndex objects edge (Int32.ofNat node.outControlEdges.length))

def recordInDataEdge (edge : Edge) (index : Int32) : GraphStatus × FastNode Edge :=
  if ¬node.checkDataIndexIsValid index .kDirectionInType then (.failed,node)
  else if node.inDataEdges.getD (sizeT index) none ≠ none then (.failed,node)
  else (.success,node.setInData index (some edge) (node.counts.inDataEdgesCount + 1))

def recordOutDataEdge (edge : Edge) (index : Int32) : GraphStatus × FastNode Edge :=
  if ¬node.checkDataIndexIsValid index .kDirectionOutType then (.failed,node)
  else (.success,node.setOutData index (node.outDataVector index ++ [some edge]) (node.counts.totalNum + 1)
    (node.perEdges index + 1))

def recordEdge (edge : Edge) :
    DirectionType → GraphStatus × FastNode Edge × (Edge → FastEdge Node)
  | .kDirectionInType =>
    let index := (objects edge).dstInput
    if index = kControlEdgeIndex then node.recordInControlEdge objects edge
    else
      let (status,changed) := node.recordInDataEdge edge index
      (status,changed,setInIndex objects edge 0)
  | .kDirectionOutType =>
    let index := (objects edge).srcOutput
    if index = kControlEdgeIndex then node.recordOutControlEdge objects edge
    else if ¬sizeT index < node.outDataEdges.length then (.failed,node,objects)
    else
      let (status,changed) := node.recordOutDataEdge edge index
      (status,changed,setOutIndex objects edge (Int32.ofNat (node.outDataVector index).length))

def eraseInControlEdge (edge : Edge) :
    GraphStatus × FastNode Edge :=
  let place := sizeT (objects edge).inEdgeIndex
  if ¬place < node.inControlEdges.length then (.failed,node)
  else if node.inControlEdges.getD place none ≠ some edge then (.failed,node)
  else (.success,node.setInControl (node.inControlEdges.set place none) (node.counts.inControlEdgeCount - 1))

def eraseOutControlEdge (edge : Edge) :
    GraphStatus × FastNode Edge :=
  let place := sizeT (objects edge).outEdgeIndex
  if ¬place < node.outControlEdges.length then (.failed,node)
  else if node.outControlEdges.getD place none ≠ some edge then (.failed,node)
  else (.success,node.setOutControl (node.outControlEdges.set place none) (node.counts.outControlEdgesCount - 1))

def eraseInDataEdge (edge : Edge) :
    GraphStatus × FastNode Edge :=
  let index := (objects edge).dstInput
  if ¬node.checkDataIndexIsValid index .kDirectionInType then (.failed,node)
  else if node.inDataEdges.getD (sizeT index) none ≠ some edge then (.failed,node)
  else (.success,node.setInData index none (node.counts.inDataEdgesCount - 1))

def eraseOutDataEdge (edge : Edge) (index : Int32) :
    GraphStatus × FastNode Edge :=
  let place := sizeT (objects edge).outEdgeIndex
  if ¬node.checkDataIndexIsValid index .kDirectionOutType then (.failed,node)
  else if ¬place < (node.outDataVector index).length then (.failed,node)
  else if (node.outDataVector index).getD place none ≠ some edge then (.failed,node)
  else (.success,node.setOutData index ((node.outDataVector index).set place none) (node.counts.totalNum - 1)
    (node.perEdges index - 1))

def eraseEdge (edge : Edge) :
    DirectionType → GraphStatus × FastNode Edge
  | .kDirectionOutType =>
    let index := (objects edge).srcOutput
    if index = kControlEdgeIndex then node.eraseOutControlEdge objects edge
    else node.eraseOutDataEdge objects edge index
  | .kDirectionInType =>
    let index := (objects edge).dstInput
    if index = kControlEdgeIndex then node.eraseInControlEdge objects edge
    else node.eraseInDataEdge objects edge

def ioSize : DirectionType → Nat
  | .kDirectionInType => node.dataInNum
  | .kDirectionOutType => node.dataOutNum

def edgeSize (type : DirectionType) (ioIdx : Int32) : Nat :=
  if ioIdx = kControlEdgeIndex then
    match type with
    | .kDirectionInType => node.inControlEdges.length
    | .kDirectionOutType => node.outControlEdges.length
  else
    match type with
    | .kDirectionInType => 1
    | .kDirectionOutType => (node.outDataVector ioIdx).length

def checkAllInputParamter (type : DirectionType) (ioIdx curArrayIndex replaceArrayIndex : Int32) :
    GraphStatus :=
  if ioIdx.toInt < -1 then .failed
  else if ioIdx ≠ kControlEdgeIndex ∧ node.ioSize type ≤ sizeT ioIdx then .failed
  else if node.edgeSize type ioIdx ≤ sizeT replaceArrayIndex ∨ node.edgeSize type ioIdx ≤ sizeT curArrayIndex then
    .failed
  else .success

/-- The two assignments of `MoveEdge` to a vector. -/
def moveEntry (vector : List (Option Edge)) (cur replace : Nat) : List (Option Edge) :=
  (vector.set replace (vector.getD cur none)).set cur none

def moveEdge (type : DirectionType)
    (ioIdx curArrayIndex replaceArrayIndex : Int32) : GraphStatus × FastNode Edge × (Edge → FastEdge Node) :=
  match node.checkAllInputParamter type ioIdx curArrayIndex replaceArrayIndex with
  | .success =>
    let cur := sizeT curArrayIndex
    let replace := sizeT replaceArrayIndex
    match type with
    | .kDirectionInType =>
      if ioIdx = kControlEdgeIndex then
        let vector := moveEntry node.inControlEdges cur replace
        let moved := node.setInControl vector node.counts.inControlEdgeCount
        match vector.getD replace none with
        | some edge => (.success,moved,setInIndex objects edge replaceArrayIndex)
        | none => (.success,moved,objects)
      else (.success,node,objects)
    | .kDirectionOutType =>
      let vector := moveEntry (if ioIdx = kControlEdgeIndex then node.outControlEdges else node.outDataVector ioIdx)
        cur replace
      let moved :=
        if ioIdx = kControlEdgeIndex then node.setOutControl vector node.counts.outControlEdgesCount
        else node.setOutData ioIdx vector node.counts.totalNum (node.perEdges ioIdx)
      match vector.getD replace none with
      | some edge => (.success,moved,setOutIndex objects edge replaceArrayIndex)
      | none => (.success,moved,objects)
  | status => (status,node,objects)

end FastNode

end GraphEngine.FastGraph
