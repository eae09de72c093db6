import GraphEngine.Fusion.LargeBitmap

/-! The connection matrix: one bitmap for each node of the graph it was made for, found by the node's name. A name
that is not in the table gets index 0. -/
namespace GraphEngine.Fusion

open Relation List LargeBitmap

/-- The edges are those of `GetInAllNodes` and `GetOutAllNodes`: data to data and control to control. Links from a data anchor
to a control anchor are left out. -/
structure Graph (Name : Type) where
  nodes : List Name
  edges : List (Name × Name)
  deriving DecidableEq, Repr

variable {Name : Type} [DecidableEq Name]

namespace Graph

def outAllNodes (graph : Graph Name) (node : Name) : List Name :=
  (graph.edges.filter (·.1 = node)).map (·.2)

def inAllNodes (graph : Graph Name) (node : Name) : List Name :=
  (graph.edges.filter (·.2 = node)).map (·.1)

def Edge (graph : Graph Name) (u v : Name) : Prop := (u,v) ∈ graph.edges

theorem mem_outAllNodes {graph : Graph Name} {u v : Name} : v ∈ graph.outAllNodes u ↔ graph.Edge u v := by
  simp [outAllNodes,Edge]

theorem mem_inAllNodes {graph : Graph Name} {u v : Name} : u ∈ graph.inAllNodes v ↔ graph.Edge u v := by
  simp [inAllNodes,Edge]

structure Topological (graph : Graph Name) : Prop where
  nodup : graph.nodes.Nodup
  forward : ∀ u v, graph.Edge u v →
    u ∈ graph.nodes ∧ v ∈ graph.nodes ∧ graph.nodes.idxOf u < graph.nodes.idxOf v

end Graph

structure ConnectionMatrix (Name : Type) where
  names : List Name
  bitMaps : List LargeBitmap
  deriving DecidableEq

namespace ConnectionMatrix

def make (graph : Graph Name) : ConnectionMatrix Name where
  names := graph.nodes
  bitMaps := graph.nodes.map fun _ => .zero graph.nodes.length

section Operations
variable (matrix : ConnectionMatrix Name)

def getIndex (node : Name) : Nat :=
  if node ∈ matrix.names then matrix.names.idxOf node else 0

def getBitMap (node : Name) : LargeBitmap :=
  matrix.bitMaps.getD (matrix.getIndex node) (.zero 0)

def setBitMap (node : Name) (bitmap : LargeBitmap) : ConnectionMatrix Name :=
  { matrix with bitMaps := matrix.bitMaps.set (matrix.getIndex node) bitmap }

def isConnected (a b : Name) : Bool :=
  (matrix.getBitMap b).getBit (matrix.getIndex a)

def setConnectivity (inputs : List Name) (node : Name) : ConnectionMatrix Name :=
  let bitmap := matrix.getBitMap node
  let bitmap := if node ∈ inputs then bitmap else bitmap.setValues 0
  let bitmap := bitmap.setBit (matrix.getIndex node)
  let bitmap := inputs.foldl (fun bitmap input =>
    if input ≠ node then bitmap.or (matrix.getBitMap input) else bitmap) bitmap
  matrix.setBitMap node bitmap

def generate (graph : Graph Name) : ConnectionMatrix Name :=
  graph.nodes.foldl (fun matrix node => matrix.setConnectivity (graph.inAllNodes node) node) (make graph)

def spreadNode (fusionNodes : List Name) (newBitVector : LargeBitmap) (matrix : ConnectionMatrix Name) (node : Name) :
    ConnectionMatrix Name :=
  if fusionNodes.any fun fused => (matrix.getBitMap node).getBit (matrix.getIndex fused) then
    matrix.setBitMap node ((matrix.getBitMap node).or newBitVector)
  else matrix

/-- The second loop of `Update`: a node gets the new bits if its bitmap has a fused node. -/
def spread (fusionNodes : List Name) (newBitVector : LargeBitmap) (nodes : List Name)
    (matrix : ConnectionMatrix Name) : ConnectionMatrix Name := nodes.foldl (spreadNode fusionNodes newBitVector) matrix

def update (graph : Graph Name) (fusionNodes : List Name) : ConnectionMatrix Name :=
  let newBitVector := fusionNodes.foldl (fun bits node => bits.or (matrix.getBitMap node)) (.zero graph.nodes.length)
  spread fusionNodes newBitVector graph.nodes matrix

def expandStep : Nat := 64

/-- The rows and the bits of the rows are resized together; the rows without a node are cleared. -/
def addNode (name : Name) : ConnectionMatrix Name :=
  let used := matrix.names.length
  let size := matrix.bitMaps.length
  let bitMaps : List LargeBitmap :=
    if size ≤ used + 1 then
      let newSize := size + expandStep
      let resized := matrix.bitMaps.map (LargeBitmap.resizeBits · newSize) ++ List.replicate expandStep (.zero newSize)
      resized.mapIdx fun i bitmap => if used ≤ i then bitmap.setValues 0 else bitmap
    else matrix.bitMaps
  ⟨matrix.names ++ [name],bitMaps⟩

/-- The new row is joined from the rows of the fused nodes and then given to all rows that have one of them. -/
def expandAndUpdate (fusionNodes : List Name) (name : Name) : ConnectionMatrix Name :=
  let matrix' := matrix.addNode name
  let newIndex := matrix.names.length
  let newBitVector := fusionNodes.foldl (fun bits node => bits.or (matrix'.getBitMap node))
    ((matrix'.bitMaps.getD newIndex (.zero 0)).setBit newIndex)
  { matrix' with
    bitMaps := (matrix'.bitMaps.set newIndex newBitVector).mapIdx fun i nodeMap =>
      if i < matrix'.names.length ∧ (fusionNodes.any fun fused => nodeMap.getBit (matrix'.getIndex fused)) then
        nodeMap.or newBitVector
      else nodeMap }

end Operations

section Access
variable {matrix : ConnectionMatrix Name} {x y : Name} {bitmap : LargeBitmap}

@[simp] theorem getIndex_setBitMap : (matrix.setBitMap x bitmap).getIndex y = matrix.getIndex y := rfl

theorem getIndex_inj (known : x ∈ matrix.names) (known' : y ∈ matrix.names)
    (same : matrix.getIndex x = matrix.getIndex y) : x = y := by
  unfold getIndex at same
  rw [if_pos known,if_pos known'] at same
  exact (idxOf_inj known).mp same

theorem getBitMap_setBitMap_self (inside : matrix.getIndex x < matrix.bitMaps.length) :
    (matrix.setBitMap x bitmap).getBitMap x = bitmap := by
  unfold getBitMap
  rw [getIndex_setBitMap]
  change (matrix.bitMaps.set (matrix.getIndex x) bitmap).getD _ _ = _
  rw [getD_eq_getElem?_getD,getElem?_set_self inside]
  rfl

theorem getBitMap_setBitMap_other (other : matrix.getIndex x ≠ matrix.getIndex y) :
    (matrix.setBitMap x bitmap).getBitMap y = matrix.getBitMap y := by
  unfold getBitMap
  rw [getIndex_setBitMap]
  change (matrix.bitMaps.set (matrix.getIndex x) bitmap).getD _ _ = _
  rw [getD_eq_getElem?_getD,getElem?_set_ne other,getD_eq_getElem?_getD]

end Access

section Generate
variable {graph : Graph Name}

structure Done (graph : Graph Name) (done : List Name) (matrix : ConnectionMatrix Name) : Prop where
  names : matrix.names = graph.nodes
  known : ∀ y ∈ done, y ∈ graph.nodes
  length : matrix.bitMaps.length = graph.nodes.length
  sizes : ∀ node ∈ graph.nodes, (matrix.getBitMap node).size = graph.nodes.length
  exact : ∀ y ∈ done, ∀ x ∈ graph.nodes, matrix.isConnected x y = true ↔ ReflTransGen graph.Edge x y

theorem Done.make (graph : Graph Name) : Done graph [] (make graph) where
  names := rfl
  known y none := absurd none not_mem_nil
  length := length_map _
  sizes node known := by
    have inside : graph.nodes.idxOf node < graph.nodes.length := idxOf_lt_length_of_mem known
    unfold getBitMap getIndex ConnectionMatrix.make
    rw [if_pos known,getD_eq_getElem?_getD,getElem?_map,getElem?_eq_getElem inside]
    rfl
  exact y none := absurd none not_mem_nil

variable (maps : Name → LargeBitmap)

theorem getBit_join (node : Name) (inputs : List Name) (start : LargeBitmap)
    (sizes : ∀ input ∈ inputs, (maps input).size = start.size) (index : Nat) :
    (inputs.foldl (fun bitmap input => if input ≠ node then bitmap.or (maps input) else bitmap) start).getBit index = true ↔
      start.getBit index = true ∨ ∃ input ∈ inputs, input ≠ node ∧ (maps input).getBit index = true := by
  induction inputs generalizing start with
  | nil => simp
  | cons input inputs ih =>
    rw [foldl_cons]
    by_cases same : input = node
    · rw [if_neg (not_not.mpr same),ih start fun other inside => sizes other (mem_cons_of_mem _ inside)]
      simp [same]
    · have here := sizes input mem_cons_self
      rw [if_pos same,ih]
      · rw [getBit_or_of_size here.symm,Bool.or_eq_true]
        simp [same,or_assoc]
      · intro other inside
        rw [or_size]
        exact sizes other (mem_cons_of_mem _ inside)

theorem join_size (node : Name) (inputs : List Name) (start : LargeBitmap) :
    (inputs.foldl (fun bitmap input => if input ≠ node then bitmap.or (maps input) else bitmap) start).size = start.size := by
  induction inputs generalizing start with
  | nil => rfl
  | cons input inputs ih =>
    rw [foldl_cons,ih]
    split <;> rfl

variable (sorted : graph.Topological)
include sorted

theorem Done.step {done : List Name} {node : Name} {matrix : ConnectionMatrix Name}
    (known : node ∈ graph.nodes) (fresh : node ∉ done) (before : ∀ input, graph.Edge input node → input ∈ done)
    (inv : Done graph done matrix) : Done graph (done ++ [node]) (matrix.setConnectivity (graph.inAllNodes node) node) := by
  have inside : matrix.getIndex node < matrix.bitMaps.length := by
    rw [inv.length,getIndex,inv.names,if_pos known]
    exact idxOf_lt_length_of_mem known
  have apart : ∀ y ∈ graph.nodes, y ≠ node → matrix.getIndex node ≠ matrix.getIndex y := by
    intro y knownY other same
    exact other (getIndex_inj (by rw [inv.names]; exact known) (by rw [inv.names]; exact knownY) same).symm
  have loopless : node ∉ graph.inAllNodes node := by
    intro loop
    exact absurd (sorted.forward _ _ (Graph.mem_inAllNodes.mp loop)).2.2 (lt_irrefl _)
  have indexLt : matrix.getIndex node < graph.nodes.length := by rw [← inv.length]; exact inside
  unfold setConnectivity
  dsimp only
  rw [if_neg loopless]
  refine ⟨inv.names,?_,?_,?_,?_⟩
  · exact forall_mem_append.mpr ⟨inv.known,forall_mem_singleton.mpr known⟩
  · change (matrix.bitMaps.set _ _).length = _
    rw [length_set,inv.length]
  · intro other knownOther
    by_cases same : other = node
    · rw [same,getBitMap_setBitMap_self inside,join_size,setBit_size,setValues_size]
      exact inv.sizes node known
    · rw [getBitMap_setBitMap_other (apart other knownOther same)]
      exact inv.sizes other knownOther
  · intro y isDone x knownX
    unfold isConnected
    rcases mem_append.mp isDone with earlier | last
    · have other : y ≠ node := fun same => fresh (same ▸ earlier)
      rw [getBitMap_setBitMap_other (apart y (inv.known y earlier) other)]
      exact inv.exact y earlier x knownX
    · rw [mem_singleton] at last
      subst last
      rw [getBitMap_setBitMap_self inside,getIndex_setBitMap,getBit_join]
      · rw [getBit_setBit,getBit_setValues_zero,Bool.false_or,decide_eq_true_eq,
          setValues_size,inv.sizes y known,ReflTransGen.cases_tail_iff]
        constructor
        · rintro (⟨same,-⟩ | ⟨input,isInput,-,set⟩)
          · exact .inl (getIndex_inj (by rw [inv.names]; exact known) (by rw [inv.names]; exact knownX) same)
          · have edge := Graph.mem_inAllNodes.mp isInput
            exact .inr ⟨input,(inv.exact input (before input edge) x knownX).mp set,edge⟩
        · rintro (rfl | ⟨input,path,edge⟩)
          · exact .inl ⟨rfl,indexLt⟩
          · have isInput := Graph.mem_inAllNodes.mpr edge
            exact .inr ⟨input,isInput,fun same => loopless (same ▸ isInput),
              (inv.exact input (before input edge) x knownX).mpr path⟩
      · intro input isInput
        rw [setBit_size,setValues_size,inv.sizes y known]
        exact inv.sizes input (sorted.forward _ _ (Graph.mem_inAllNodes.mp isInput)).1

theorem Done.foldl (rest : List Name) : ∀ (done : List Name)
    (matrix : ConnectionMatrix Name), graph.nodes = done ++ rest → Done graph done matrix →
      Done graph graph.nodes
        (rest.foldl (fun matrix node => matrix.setConnectivity (graph.inAllNodes node) node) matrix) := by
  induction rest with
  | nil =>
    intro done matrix whole inv
    rw [append_nil] at whole
    rw [whole]
    exact inv
  | cons node rest ih =>
    intro done matrix whole inv
    have nodup := sorted.nodup
    rw [whole] at nodup
    have known : node ∈ graph.nodes := by
      rw [whole]
      exact mem_append_right _ mem_cons_self
    have fresh : node ∉ done := by
      intro earlier
      exact (nodup_append.mp nodup).2.2 node earlier node mem_cons_self rfl
    have position : graph.nodes.idxOf node = done.length := by
      rw [whole,idxOf_append_of_notMem fresh,idxOf_cons_self,add_zero]
    have before : ∀ input, graph.Edge input node → input ∈ done := by
      intro input edge
      by_contra late
      have forward := (sorted.forward input node edge).2.2
      rw [position,whole,idxOf_append_of_notMem late] at forward
      omega
    rw [foldl_cons]
    apply ih (done ++ [node])
    · rw [whole,append_assoc,singleton_append]
    · exact inv.step sorted known fresh before

theorem generate_isConnected {x y : Name} (knownX : x ∈ graph.nodes)
    (knownY : y ∈ graph.nodes) : (generate graph).isConnected x y = true ↔ ReflTransGen graph.Edge x y :=
  (Done.foldl sorted graph.nodes [] (.make graph) rfl (Done.make graph)).exact y knownY x knownX

end Generate
end ConnectionMatrix
end GraphEngine.Fusion
