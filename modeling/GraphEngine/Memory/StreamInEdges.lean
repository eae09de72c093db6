import Mathlib.Order.Lattice.Nat

/-! The in-edge table of the block memory assigner: for two streams, which node of the one waits for which node of the
other. Nodes are named by their topological ids. -/
namespace GraphEngine.Memory.BlockMemAssigner

open List

structure EdgeLife where
  nodeId : Nat
  peerNodeId : Nat
  deriving DecidableEq, Repr

/-- A set that `CompareEdgeLife` orders: ascending node ids, the peers take no part in the comparison. -/
abbrev EdgeSet := List EdgeLife

/-- The edges of a stream pair, the source streams known for each stream, and every entry that was ever inserted. -/
structure StreamEdges where
  edges : Int → Int → EdgeSet
  sources : Int → List Int
  log : List (Int × Int × EdgeLife)

def empty : StreamEdges := ⟨fun _ _ => [],fun _ => [],[]⟩

structure StreamGraph where
  nodes : List Nat
  peers : Nat → List Nat
  stream : Nat → Int
  /-- Atomic clean and local nodes. -/
  skipped : Nat → Bool

def put (set : EdgeSet) (edge : EdgeLife) : EdgeSet :=
  set.filter (·.nodeId < edge.nodeId) ++ edge :: set.filter (edge.nodeId < ·.nodeId)

def StreamEdges.setEdges (table : StreamEdges) (dst src : Int) (set : EdgeSet) : StreamEdges :=
  { table with
    edges := Function.update table.edges dst (Function.update (table.edges dst) src set)
    sources := Function.update table.sources dst
      ((table.sources dst).filter (· < src) ++ src :: (table.sources dst).filter (src < ·)) }

def StreamEdges.insert (table : StreamEdges) (dst src : Int) (edge : EdgeLife) : StreamEdges :=
  { table.setEdges dst src (put (table.edges dst src) edge) with log := (dst,src,edge) :: table.log }

def insertStreamInEdge (table : StreamEdges) (newInEdge : EdgeLife) (src dst : Int) : StreamEdges :=
  match (table.edges dst src).find? (·.nodeId = newInEdge.nodeId) with
  | some old => if old.peerNodeId < newInEdge.peerNodeId then table.insert dst src newInEdge else table
  | none => table.insert dst src newInEdge

def eraseIntersectedEdge (set : EdgeSet) (old new : EdgeLife) : EdgeSet :=
  if old.nodeId > new.nodeId ∧ old.peerNodeId < new.peerNodeId ∨ old.nodeId < new.nodeId ∧ old.peerNodeId > new.peerNodeId then
    match set.find? (·.nodeId = old.nodeId) with
    | some found => if found.peerNodeId = old.peerNodeId then set.filter (·.nodeId ≠ old.nodeId) else set
    | none => set
  else set

def lowerBound (set : EdgeSet) (nodeId : Nat) : EdgeSet := set.dropWhile (·.nodeId < nodeId)

def atOrBefore (set : EdgeSet) (nodeId : Nat) : Option EdgeLife :=
  match lowerBound set nodeId with
  | edge :: _ => if edge.nodeId > nodeId then (set.takeWhile (·.nodeId < nodeId)).getLast? else some edge
  | [] => (set.takeWhile (·.nodeId < nodeId)).getLast?

/-- One round of the loop of `AddInStreamEdge`. -/
def addThirdStream (stream : Int) (nodeId : Nat) (inStream : Int) (inNodeId : Nat) (table : StreamEdges) (third : Int) :
    StreamEdges :=
  if table.edges inStream third = [] ∨ stream = third then table
  else
    match atOrBefore (table.edges inStream third) inNodeId with
    | none => table
    | some edge =>
      let newInEdge : EdgeLife := ⟨nodeId,edge.peerNodeId⟩
      let set := table.edges stream third
      let kept := match lowerBound set nodeId with
        | old :: _ => eraseIntersectedEdge set old newInEdge
        | [] => set
      insertStreamInEdge (table.setEdges stream third kept) newInEdge third stream

def addInStreamEdge (graph : StreamGraph) (table : StreamEdges) (node inNode : Nat) : StreamEdges :=
  (table.sources (graph.stream inNode)).foldl
    (addThirdStream (graph.stream node) node (graph.stream inNode) inNode) table

def getDiffStreamEdgeLife (graph : StreamGraph) (excludeMergeStreams : List Int) (table : StreamEdges) (node : Nat) :
    StreamEdges :=
  if graph.skipped node then table
  else (graph.peers node).foldl (fun table peer =>
    if graph.stream node = graph.stream peer then table
    else if graph.stream node ∈ excludeMergeStreams ∨ graph.stream peer ∈ excludeMergeStreams then table
    else addInStreamEdge graph (insertStreamInEdge table ⟨peer,node⟩ (graph.stream node) (graph.stream peer)) peer node) table

def inStreamEdges (graph : StreamGraph) (excludeMergeStreams : List Int) : StreamEdges :=
  graph.nodes.foldl (getDiffStreamEdgeLife graph excludeMergeStreams) empty

def dropRedundant : Nat → Nat → EdgeSet → EdgeSet
  | _,_,[] => []
  | inNodeId,outNodeId,edge :: rest =>
    if inNodeId ≤ edge.nodeId ∧ edge.peerNodeId ≤ outNodeId then dropRedundant inNodeId outNodeId rest
    else edge :: dropRedundant edge.nodeId edge.peerNodeId rest

def handleDependentStreamRedundantInfo (set : EdgeSet) : EdgeSet := if set.length ≤ 1 then set else dropRedundant 0 0 set

def handleInStreamRedundantDependence (table : StreamEdges) : StreamEdges :=
  { table with edges := fun dst src => handleDependentStreamRedundantInfo (table.edges dst src) }

/-- For a block of a stream whose first node begins its life at `lifeBegin`. -/
def getDependLifeBegin (table : StreamEdges) (blockStream : Int) (lifeBegin : Nat) (stream : Int) : Nat :=
  ((atOrBefore (table.edges blockStream stream) lifeBegin).map EdgeLife.peerNodeId).getD 0

def Before (graph : StreamGraph) (u v : Nat) : Prop := v ∈ graph.peers u ∨ graph.stream u = graph.stream v ∧ u < v

/-- What an entry should say: its peer happens before its node, and both are on the streams it stands for. -/
structure HappensBefore (graph : StreamGraph) (entry : Int × Int × EdgeLife) : Prop where
  dst : graph.stream entry.2.2.nodeId = entry.1
  src : graph.stream entry.2.2.peerNodeId = entry.2.1
  order : Relation.TransGen (Before graph) entry.2.2.peerNodeId entry.2.2.nodeId

def greatestPeer (set : EdgeSet) (nodeId : Nat) : Nat :=
  ((set.filter (·.nodeId ≤ nodeId)).map EdgeLife.peerNodeId).foldr max 0

def entriesOf (log : List (Int × Int × EdgeLife)) (dst src : Int) : EdgeSet :=
  log.filterMap fun entry => if entry.1 = dst ∧ entry.2.1 = src then some entry.2.2 else none

def Ascending (set : EdgeSet) : Prop := set.Pairwise (·.nodeId < ·.nodeId)

def Dominates (edge other : EdgeLife) : Prop := edge.nodeId ≤ other.nodeId ∧ other.peerNodeId ≤ edge.peerNodeId

variable {set : EdgeSet} {edge other : EdgeLife} {log : EdgeSet} {new old : EdgeLife} {graph : StreamGraph}
  {table : StreamEdges}

theorem Ascending.eq (ascending : Ascending set) (there : edge ∈ set) (there' : other ∈ set)
    (same : edge.nodeId = other.nodeId) : edge = other := by
  have nodup : (set.map EdgeLife.nodeId).Nodup := pairwise_map.mpr (ascending.imp Nat.ne_of_lt)
  exact inj_on_of_nodup_map nodup there there' same

theorem mem_put : other ∈ put set edge ↔ other = edge ∨ other ∈ set ∧ other.nodeId ≠ edge.nodeId := by
  simp only [put,mem_append,mem_filter,mem_cons,decide_eq_true_eq]
  have cases := Nat.lt_or_gt (a := other.nodeId) (b := edge.nodeId)
  tauto

theorem Ascending.put (ascending : Ascending set) (edge : EdgeLife) : Ascending (put set edge) := by
  refine pairwise_append.mpr ⟨ascending.filter _,pairwise_cons.mpr ⟨?_,ascending.filter _⟩,?_⟩
  · intro later there
    simpa using (mem_filter.mp there).2
  · intro first one second two
    have below : first.nodeId < edge.nodeId := by simpa using (mem_filter.mp one).2
    rcases mem_cons.mp two with rfl | two
    · exact below
    · have above : edge.nodeId < second.nodeId := by simpa using (mem_filter.mp two).2
      exact below.trans above

theorem filter_past {nodeId : Nat} (above : ∀ other ∈ set, edge.nodeId < other.nodeId) (past : nodeId ≤ edge.nodeId) :
    set.filter (·.nodeId ≤ nodeId) = [] := by
  rw [filter_eq_nil_iff]
  intro other there
  have := above other there
  simp only [decide_eq_true_eq]
  omega

theorem atOrBefore_eq (ascending : Ascending set) (nodeId : Nat) :
    atOrBefore set nodeId = (set.filter (·.nodeId ≤ nodeId)).getLast? := by
  induction set with
  | nil => rfl
  | cons edge set ih =>
    obtain ⟨above,ascending⟩ := pairwise_cons.mp ascending
    have step := ih ascending
    rcases lt_trichotomy edge.nodeId nodeId with below | same | past
    · have behind : atOrBefore (edge :: set) nodeId = (atOrBefore set nodeId).or (some edge) := by
        rw [atOrBefore,atOrBefore,lowerBound,lowerBound,dropWhile_cons_of_pos (by simpa using below),
          takeWhile_cons_of_pos (by simpa using below),getLast?_cons]
        split
        · split
          · cases (set.takeWhile _).getLast? <;> rfl
          · rfl
        · cases (set.takeWhile _).getLast? <;> rfl
      rw [behind,step,filter_cons_of_pos (by simpa using below.le),getLast?_cons]
      cases (set.filter _).getLast? <;> rfl
    · have rest := filter_past above same.ge
      rw [atOrBefore,lowerBound,dropWhile_cons_of_neg (by simp [same]),filter_cons_of_pos (by simp [same]),rest]
      simp [same]
    · have rest := filter_past above past.le
      rw [atOrBefore,lowerBound,dropWhile_cons_of_neg (by simpa using past.le),
        filter_cons_of_neg (by simpa using past),rest,takeWhile_cons_of_neg (by simpa using past.le)]
      simp [past]

theorem greatestPeer_cons (edge : EdgeLife) (set : EdgeSet) (nodeId : Nat) : greatestPeer (edge :: set) nodeId =
    if edge.nodeId ≤ nodeId then max edge.peerNodeId (greatestPeer set nodeId) else greatestPeer set nodeId := by
  rw [greatestPeer,filter_cons]
  simp only [decide_eq_true_eq]
  split <;> rfl

theorem greatestPeer_le_iff {nodeId bound : Nat} :
    greatestPeer set nodeId ≤ bound ↔ ∀ edge ∈ set, edge.nodeId ≤ nodeId → edge.peerNodeId ≤ bound := by
  induction set with
  | nil => simp [greatestPeer]
  | cons edge set ih =>
    rw [greatestPeer_cons,forall_mem_cons,← ih]
    split
    · rename_i here
      simp [here]
    · rename_i past
      simp [past]

theorem dropRedundant_sublist (inNodeId outNodeId : Nat) (set : EdgeSet) :
    (dropRedundant inNodeId outNodeId set).Sublist set := by
  induction set generalizing inNodeId outNodeId with
  | nil => exact List.Sublist.slnil
  | cons edge set ih =>
    rw [dropRedundant]
    split
    · exact (ih _ _).cons edge
    · exact (ih _ _).cons_cons edge

theorem dropRedundant_last (ascending : Ascending set) {inNodeId : Nat} (outNodeId nodeId : Nat)
    (later : ∀ edge ∈ set, inNodeId ≤ edge.nodeId) :
    (((dropRedundant inNodeId outNodeId set).filter (·.nodeId ≤ nodeId)).getLast?.map EdgeLife.peerNodeId).getD outNodeId =
      max outNodeId (greatestPeer set nodeId) := by
  induction set generalizing inNodeId outNodeId with
  | nil => simp [dropRedundant,greatestPeer]
  | cons edge set ih =>
    obtain ⟨above,ascending⟩ := pairwise_cons.mp ascending
    obtain ⟨first,later⟩ := forall_mem_cons.mp later
    rw [dropRedundant,greatestPeer_cons]
    rcases lt_or_ge nodeId edge.nodeId with past | here
    · have none := filter_past above past.le
      have nothing : greatestPeer set nodeId = 0 := by rw [greatestPeer,none]; rfl
      rw [if_neg (Nat.not_le_of_lt past),nothing]
      split
      · rw [ih ascending outNodeId later,nothing]
      · have kept := ((dropRedundant_sublist edge.nodeId edge.peerNodeId set).filter (·.nodeId ≤ nodeId))
        rw [none,sublist_nil] at kept
        rw [filter_cons_of_neg (by simpa using past),kept]
        simp
    · rw [if_pos here]
      split
      · rename_i redundant
        rw [ih ascending outNodeId later]
        omega
      · rename_i fresh
        have step := ih ascending edge.peerNodeId fun other there => (above other there).le
        rw [filter_cons_of_pos (by simpa using here),getLast?_cons]
        have value : ((some ((dropRedundant edge.nodeId edge.peerNodeId set).filter
            (·.nodeId ≤ nodeId)).getLast?).map (Option.getD · edge)).map EdgeLife.peerNodeId =
            some (max edge.peerNodeId (greatestPeer set nodeId)) := by
          rw [← step]
          cases ((dropRedundant edge.nodeId edge.peerNodeId set).filter (·.nodeId ≤ nodeId)).getLast? <;> rfl
        simp only [Option.map_some] at value ⊢
        rw [value,Option.getD_some]
        omega

theorem lookup_greatest (ascending : Ascending set) (nodeId : Nat) :
    ((atOrBefore (handleDependentStreamRedundantInfo set) nodeId).map EdgeLife.peerNodeId).getD 0 = greatestPeer set nodeId := by
  rw [handleDependentStreamRedundantInfo]
  split
  · rename_i short
    rw [atOrBefore_eq ascending]
    match set with
    | [] => rfl
    | [edge] =>
      rw [greatestPeer_cons]
      split
      · rename_i here
        simp [here,greatestPeer]
      · rename_i past
        simp [past,greatestPeer]
    | _ :: _ :: _ => simp at short
  · rw [atOrBefore_eq (ascending.sublist (dropRedundant_sublist 0 0 set)),dropRedundant_last ascending 0 nodeId fun _ _ =>
      Nat.zero_le _]
    exact Nat.zero_max _

structure Covers (set log : EdgeSet) : Prop where
  ascending : Ascending set
  logged : ∀ edge ∈ set, edge ∈ log
  dominated : ∀ edge ∈ log, ∃ other ∈ set, Dominates other edge

theorem Covers.greatestPeer (covers : Covers set log) (nodeId : Nat) : greatestPeer set nodeId = greatestPeer log nodeId := by
  apply le_antisymm
  · rw [greatestPeer_le_iff]
    intro edge there
    exact greatestPeer_le_iff.mp le_rfl edge (covers.logged edge there)
  · rw [greatestPeer_le_iff]
    intro edge there early
    obtain ⟨other,inside,before,more⟩ := covers.dominated edge there
    exact more.trans (greatestPeer_le_iff.mp le_rfl other inside (before.trans early))

structure Nearly (new : EdgeLife) (set log : EdgeSet) : Prop where
  ascending : Ascending set
  logged : ∀ edge ∈ set, edge ∈ log
  dominated : ∀ edge ∈ log, (∃ other ∈ set, Dominates other edge) ∨ Dominates new edge

theorem Covers.nearly (covers : Covers set log) (new : EdgeLife) : Nearly new set log :=
  ⟨covers.ascending,covers.logged,fun edge there => Or.inl (covers.dominated edge there)⟩

theorem Nearly.put (nearly : Nearly new set log)
    (replaced : ∀ edge ∈ set, edge.nodeId = new.nodeId → edge.peerNodeId ≤ new.peerNodeId) :
      Covers (put set new) (new :: log) := by
  refine ⟨nearly.ascending.put new,?_,?_⟩
  · intro edge there
    rcases mem_put.mp there with rfl | ⟨old,-⟩
    · exact mem_cons_self
    · exact mem_cons_of_mem _ (nearly.logged edge old)
  · intro edge there
    have itself : Dominates new new := ⟨le_rfl,le_rfl⟩
    rcases mem_cons.mp there with rfl | there
    · exact ⟨edge,mem_put.mpr (Or.inl rfl),itself⟩
    · rcases nearly.dominated edge there with ⟨other,inside,before,more⟩ | now
      · rcases eq_or_ne other.nodeId new.nodeId with same | different
        · exact ⟨new,mem_put.mpr (Or.inl rfl),same ▸ before,more.trans (replaced other inside same)⟩
        · exact ⟨other,mem_put.mpr (Or.inr ⟨inside,different⟩),before,more⟩
      · exact ⟨new,mem_put.mpr (Or.inl rfl),now⟩

theorem Nearly.stay (nearly : Nearly new set log) (there : old ∈ set)
    (same : old.nodeId = new.nodeId) (more : new.peerNodeId ≤ old.peerNodeId) : Covers set log := by
  refine ⟨nearly.ascending,nearly.logged,?_⟩
  intro edge logged
  rcases nearly.dominated edge logged with member | ⟨before,less⟩
  · exact member
  · exact ⟨old,there,same ▸ before,less.trans more⟩

theorem Covers.erase (covers : Covers set log) (later : new.nodeId ≤ old.nodeId) :
    Nearly new (eraseIntersectedEdge set old new) log := by
  rw [eraseIntersectedEdge]
  split
  · rename_i crossing
    have less : new.nodeId < old.nodeId ∧ old.peerNodeId < new.peerNodeId := by omega
    cases found : set.find? (·.nodeId = old.nodeId) with
    | none => exact covers.nearly new
    | some entry =>
      dsimp only
      split
      · rename_i samePeer
        have inside := mem_of_find?_eq_some found
        have sameNode : entry.nodeId = old.nodeId := by simpa using find?_some found
        refine ⟨covers.ascending.filter _,fun edge there => covers.logged edge (mem_of_mem_filter there),?_⟩
        intro edge there
        obtain ⟨other,member,before,more⟩ := covers.dominated edge there
        rcases eq_or_ne other.nodeId old.nodeId with erased | kept
        · have entry' := covers.ascending.eq member inside (erased.trans sameNode.symm)
          subst entry'
          exact Or.inr ⟨by omega,by omega⟩
        · exact Or.inl ⟨other,mem_filter.mpr ⟨member,by simpa using kept⟩,before,more⟩
      · exact covers.nearly new
  · exact covers.nearly new

theorem entriesOf_cons (dst src dst' src' : Int) (edge : EdgeLife) (log : List (Int × Int × EdgeLife)) :
    entriesOf ((dst,src,edge) :: log) dst' src' =
      if dst = dst' ∧ src = src' then edge :: entriesOf log dst' src' else entriesOf log dst' src' := by
  rw [entriesOf,filterMap_cons]
  split <;> rename_i same <;> simp_all [entriesOf]

theorem setEdges_edges (table : StreamEdges) (dst src dst' src' : Int) (set : EdgeSet) :
    (table.setEdges dst src set).edges dst' src' = if dst = dst' ∧ src = src' then set else table.edges dst' src' := by
  rcases eq_or_ne dst' dst with rfl | other
  · rcases eq_or_ne src' src with rfl | other
    · simp [StreamEdges.setEdges]
    · simp [StreamEdges.setEdges,other,Ne.symm other]
  · simp [StreamEdges.setEdges,other,Ne.symm other]

structure Tracks (graph : StreamGraph) (table : StreamEdges) : Prop where
  covers : ∀ dst src, Covers (table.edges dst src) (entriesOf table.log dst src)
  sound : ∀ entry ∈ table.log, HappensBefore graph entry

section

variable (tracks : Tracks graph table)
include tracks

/-- A set is replaced by one that covers its entries together with the new entry, which is then inserted. -/
theorem Tracks.insert {opened : StreamEdges} {dst src : Int} (nearly : Nearly new set (entriesOf table.log dst src))
    (log : opened.log = table.log)
    (edges : ∀ dst' src', opened.edges dst' src' = if dst = dst' ∧ src = src' then set else table.edges dst' src')
    (true_ : HappensBefore graph (dst,src,new)) : Tracks graph (insertStreamInEdge opened new src dst) := by
  have here : opened.edges dst src = set := by rw [edges,if_pos ⟨rfl,rfl⟩]
  have replace (replaced : ∀ edge ∈ set, edge.nodeId = new.nodeId → edge.peerNodeId ≤ new.peerNodeId) :
      Tracks graph (opened.insert dst src new) := by
    refine ⟨?_,?_⟩
    · intro dst' src'
      rw [StreamEdges.insert,here,log]
      dsimp only
      rw [entriesOf_cons,setEdges_edges,edges]
      split
      · rename_i same
        obtain ⟨rfl,rfl⟩ := same
        exact nearly.put replaced
      · exact tracks.covers dst' src'
    · rw [StreamEdges.insert,log]
      exact forall_mem_cons.mpr ⟨true_,tracks.sound⟩
  rw [insertStreamInEdge,here]
  cases found : set.find? (·.nodeId = new.nodeId) with
  | none =>
    apply replace
    intro edge there same
    exact absurd same (by simpa using find?_eq_none.mp found edge there)
  | some old =>
    have inside := mem_of_find?_eq_some found
    have sameNode : old.nodeId = new.nodeId := by simpa using find?_some found
    dsimp only
    split
    · rename_i less
      apply replace
      intro edge there same
      rw [nearly.ascending.eq there inside (same.trans sameNode.symm)]
      exact less.le
    · rename_i more
      refine ⟨?_,log ▸ tracks.sound⟩
      intro dst' src'
      rw [edges,log]
      split
      · rename_i same
        obtain ⟨rfl,rfl⟩ := same
        exact nearly.stay inside sameNode (Nat.le_of_not_lt more)
      · exact tracks.covers dst' src'

theorem Tracks.addThirdStream {node inNode : Nat} (edge : node ∈ graph.peers inNode) (third : Int) :
    Tracks graph (addThirdStream (graph.stream node) node (graph.stream inNode) inNode table third) := by
  rw [BlockMemAssigner.addThirdStream]
  split
  · exact tracks
  · cases found : atOrBefore (table.edges (graph.stream inNode) third) inNode with
    | none => exact tracks
    | some entry =>
      have covers := tracks.covers (graph.stream inNode) third
      rw [atOrBefore_eq covers.ascending] at found
      obtain ⟨inside,early⟩ := mem_filter.mp (mem_of_getLast? found)
      obtain ⟨logged,there,same⟩ := mem_filterMap.mp (covers.logged entry inside)
      obtain ⟨⟨isDst,isSrc⟩,rfl⟩ : (logged.1 = graph.stream inNode ∧ logged.2.1 = third) ∧ logged.2.2 = entry := by
        simpa using same
      have known := tracks.sound logged there
      have true_ : HappensBefore graph (graph.stream node,third,⟨node,logged.2.2.peerNodeId⟩) := by
        refine ⟨rfl,known.src.trans isSrc,?_⟩
        have last : Before graph inNode node := Or.inl edge
        rcases (of_decide_eq_true early).eq_or_lt with equal | less
        · exact (equal ▸ known.order).tail last
        · exact (known.order.tail (Or.inr ⟨known.dst.trans isDst,less⟩)).tail last
      have target := tracks.covers (graph.stream node) third
      refine tracks.insert ?_ rfl (setEdges_edges _ _ _ · · _) true_
      split
      · rename_i old _ bound
        refine target.erase ?_
        have stops := head?_dropWhile_not (fun edge : EdgeLife => edge.nodeId < node) (table.edges (graph.stream node) third)
        rw [← lowerBound,bound] at stops
        simpa using stops
      · exact target.nearly _

theorem Tracks.getDiffStreamEdgeLife (excludeMergeStreams : List Int) (node : Nat) :
    Tracks graph (getDiffStreamEdgeLife graph excludeMergeStreams table node) := by
  rw [BlockMemAssigner.getDiffStreamEdgeLife]
  split
  · exact tracks
  · refine List.foldlRecOn _ _ tracks ?_
    intro table tracks peer edge
    split
    · exact tracks
    · split
      · exact tracks
      · have true_ : HappensBefore graph (graph.stream peer,graph.stream node,⟨peer,node⟩) := ⟨rfl,rfl,.single (Or.inl edge)⟩
        have inserted := tracks.insert ((tracks.covers _ _).nearly ⟨peer,node⟩) rfl (by simp) true_
        refine List.foldlRecOn _ _ inserted ?_
        intro table tracks third _
        exact tracks.addThirdStream edge third

end

/-- Every entry of the table is an order of the graph, and a lookup gives the greatest peer of all that were entered up to the
life begin, although entries are dropped as redundant. -/
theorem in_edge_table_best (graph : StreamGraph) (excludeMergeStreams : List Int) :
    (∀ entry ∈ (inStreamEdges graph excludeMergeStreams).log, HappensBefore graph entry) ∧
    ∀ blockStream lifeBegin stream, getDependLifeBegin
      (handleInStreamRedundantDependence (inStreamEdges graph excludeMergeStreams)) blockStream lifeBegin stream =
        greatestPeer (entriesOf (inStreamEdges graph excludeMergeStreams).log blockStream stream) lifeBegin := by
  have tracks : Tracks graph (inStreamEdges graph excludeMergeStreams) := by
    refine List.foldlRecOn _ _ ?_ fun table tracks node _ => tracks.getDiffStreamEdgeLife excludeMergeStreams node
    exact ⟨fun _ _ => ⟨List.Pairwise.nil,fun _ => nofun,fun _ => nofun⟩,fun _ => nofun⟩
  refine ⟨tracks.sound,?_⟩
  intro blockStream lifeBegin stream
  have covers := tracks.covers blockStream stream
  rw [getDependLifeBegin,handleInStreamRedundantDependence,lookup_greatest covers.ascending,covers.greatestPeer]

end GraphEngine.Memory.BlockMemAssigner
