import GraphEngine.Prefetch.Placement

/-! When a prefetch may take over the space of an earlier one. The pass makes each group wait for one reader. That covers
every tensor which the group overlaps if the reader is a calculation node, but not the tensors before a reader that is a
prefetch node. -/

namespace GraphEngine.Prefetch
open Lib Relation List
variable {Node : Type} {graph : Graph Node} {pool : BufferPool Node}

def SameStream (graph : Graph Node) : Prop :=
  ∀ a b, graph.ownerGraph a = graph.ownerGraph b ∧ graph.streamLabel a = graph.streamLabel b

def Members.placed (members : Members Node) : List Node := members.bufferNodeLogicalOffset.map LogicalOffset.node

/-- Prefetch nodes run in the order in which they are placed, calculation nodes in the order in which they are
listed, and the control edges of the pass hold. -/
def Ordered (calcNodes : List Node) (members : Members Node) : Node → Node → Prop :=
  TransGen fun a b => Precedes members.placed a b ∨ Precedes calcNodes a b ∨ (a,b) ∈ members.controlEdges

def InPool (pool : BufferPool Node) (members : Members Node) : Prop :=
  ∀ space ∈ members.bufferNodeLogicalOffset, 0 ≤ space.offsetStart ∧ space.offsetStart + space.totalSize ≤ pool.poolSize

def Intersect (start size start' size' : Int) : Prop := start < start' + size' ∧ start' < start + size

instance {start size start' size' : Int} : Decidable (Intersect start size start' size') :=
  inferInstanceAs (Decidable (_ ∧ _))

def Overwrites (members : Members Node) (earlier later : LogicalOffset Node) : Prop :=
  Precedes members.bufferNodeLogicalOffset earlier later ∧
    Intersect earlier.offsetStart earlier.totalSize later.offsetStart later.totalSize

def Protected (pool : BufferPool Node) (calcNodes : List Node) (members : Members Node) : Prop :=
  ∀ earlier later, Overwrites members earlier later →
    ∀ reader, pool.bufferNodeToCalc earlier.node = some reader → Ordered calcNodes members reader later.node

/-- A group that begins no later than the slot waits for the calculation node or for one listed after it. -/
def Awaits (calcNodes : List Node) (slots : List (Slot Node)) (reader : Node) (slot : Slot Node) : Prop :=
  ∃ first ∈ slots, first.visit.isFirst = true ∧ (first = slot ∨ Precedes slots first slot) ∧
    ∃ node ∈ awaited slots first, reader = node ∨ Precedes calcNodes reader node

/-- Where a prefetch node reads what stands in the way of a tensor, the calculation nodes that read what the tensor takes
over are awaited all the same. -/
def ChainsCovered (calcNodes : List Node) (slots : List (Slot Node)) : Prop :=
  ∀ slot ∈ slots, ∀ other ∈ blocker slots slot, other.visit.rest ≠ [] →
    ∀ earlier ∈ slots, Precedes slots earlier slot → Intersect earlier.start earlier.size slot.start slot.size →
    earlier.visit.rest = [] → Awaits calcNodes slots earlier.visit.calcNode slot

instance [DecidableEq Node] {calcNodes : List Node} {slots : List (Slot Node)} : Decidable (ChainsCovered calcNodes slots) :=
  inferInstanceAs (Decidable (∀ slot ∈ slots, ∀ other ∈ blocker slots slot, _ → ∀ earlier ∈ slots, _ → _ → _ →
    ∃ first ∈ slots, _ ∧ _ ∧ ∃ node ∈ awaited slots first, _))

structure Served (graph : Graph Node) (pool : BufferPool Node) (calcNodes : List Node) (peer : Node → List (List Node)) :
    Prop where
  plain : ∀ calcNode ∈ calcNodes, graph.isBufferNode calcNode = false
  nodup : calcNodes.Nodup
  isGroup : ∀ calcNode, ∀ group ∈ peer calcNode, IsGroup graph pool calcNode group
  orderNodup : (placeOrder calcNodes peer).Nodup

theorem doGroup_served [DecidableEq Node] {calcNodes listed : List Node} {bufferNodeItems : Node → List Node}
    {peer : Node → List (List Node)} (collected : Collected graph pool calcNodes bufferNodeItems)
    (grouped : doGroupBufferPoolNodes graph calcNodes bufferNodeItems = (listed,peer)) : Served graph pool listed peer := by
  obtain ⟨rfl,rfl⟩ := Prod.mk.inj grouped
  refine ⟨?_,collected.calcNodup.filter _,doGroup_isGroup collected,doGroup_nodup collected⟩
  intro calcNode known
  simpa using (mem_filter.mp known).2

section Readers
variable {calcNodes : List Node} {peer : Node → List (List Node)} {members : Members Node}

/-- The reader of a prefetch node is the next node of its group. -/
theorem Served.reads (served : Served graph pool calcNodes peer) {visit : Visit Node} (inside : visit ∈ visits calcNodes peer) :
    pool.bufferNodeToCalc visit.node = some visit.reader ∧
      ∀ node ∈ visit.node :: visit.rest, graph.isBufferNode node = true := by
  obtain ⟨-,group,hasGroup,front,rfl⟩ := mem_visits inside
  have isGroup := served.isGroup _ _ hasGroup
  exact ⟨isGroup.feeds.suffix.1,fun node known => isGroup.buffer node (mem_append_right _ known)⟩

variable {slots : List (Slot Node)} {slot other earlier : Slot Node} {reader node : Node}

section
variable (isLayout : slots.map Slot.visit = visits calcNodes peer)
include isLayout

theorem slots_nodes : slots.map Slot.node = placeOrder calcNodes peer := by
  rw [← visits_nodes,← isLayout,List.map_map]
  rfl

theorem slot_visited (known : slot ∈ slots) : slot.visit ∈ visits calcNodes peer := by
  rw [← isLayout]
  exact mem_map_of_mem known

theorem slots_calc_order
    (order : earlier = other ∨ Precedes slots earlier other) : earlier.visit.calcNode = other.visit.calcNode ∨
      Precedes calcNodes earlier.visit.calcNode other.visit.calcNode := by
  rcases order with rfl | order
  · exact .inl rfl
  · exact (visits_order (isLayout ▸ order.map Slot.visit)).imp_left And.left

end

theorem Rendered.placed_eq (rendered : Rendered graph pool slots members) :
    members.placed = slots.map Slot.node := by
  rw [Members.placed,rendered.offsets,List.map_map]
  rfl

theorem Awaits.later (awaits : Awaits calcNodes slots reader slot) (nodup : slots.Nodup) (order : Precedes slots slot other) :
    Awaits calcNodes slots reader other := by
  obtain ⟨first,known,isFirst,begins,waits⟩ := awaits
  refine ⟨first,known,isFirst,.inr ?_,waits⟩
  rcases begins with rfl | begins
  · exact order
  · exact begins.trans order nodup

theorem Awaits.ordered (awaits : Awaits calcNodes slots reader slot) (rendered : Rendered graph pool slots members)
    (same : SameStream graph) : Ordered calcNodes members reader slot.node := by
  obtain ⟨first,known,isFirst,begins,node,waits,listed⟩ := awaits
  have joins : Joins graph node first.node := ⟨(same _ _).1,.inl (same _ _).2⟩
  have edge : Ordered calcNodes members node first.node :=
    .single (.inr (.inr ((rendered.edges _ _).mpr ⟨first,known,rfl,joins,.inr ⟨isFirst,waits⟩⟩)))
  have toFirst : Ordered calcNodes members reader first.node := by
    rcases listed with rfl | listed
    · exact edge
    · exact TransGen.trans (.single (.inr (.inl listed))) edge
  rcases begins with rfl | begins
  · exact toFirst
  · refine toFirst.tail (.inl ?_)
    rw [rendered.placed_eq]
    exact begins.map _

section Rounds
variable (isLayout : slots.map Slot.visit = visits calcNodes peer) {poolSize : Int} (arranged : Arranged poolSize slots)
include isLayout arranged

/-- The next node of a group is placed in the same round. -/
theorem reader_placed (left : earlier ∈ slots) (right : slot ∈ slots) (rounds : earlier.round < slot.round)
    (more : earlier.visit.rest ≠ []) :
    ∃ other, other.node = earlier.visit.reader ∧ Precedes slots other slot := by
  obtain ⟨done,later,isSlots⟩ := append_of_mem left
  have trails : Trails [] (slots.map Slot.visit) [] := isLayout ▸ visits_trails
  rw [isSlots,map_append,map_cons] at trails
  obtain ⟨-,-,-,behind⟩ := trails.split
  cases later with
  | nil => exact absurd behind more
  | cons next later =>
    obtain ⟨more',isRest⟩ : next.visit.isFirst = false ∧ earlier.visit.rest = next.node :: next.visit.rest := by
      have pending := behind.1
      split at pending
      · exact absurd pending more
      · rename_i notFirst
        exact ⟨Bool.eq_false_iff.mpr notFirst,pending⟩
    have joined := arranged.joined
    rw [isSlots] at joined
    have round := (isChain_cons_cons.mp (isChain_append.mp joined).2.1).1 more'
    refine ⟨next,?_,arranged.precedes (by simp [isSlots]) right (by omega)⟩
    rw [Visit.reader,isRest]
    rfl

/-- What a tensor takes over: the reader is a prefetch node placed before it, or the group waits for the reader of a tensor
at or behind the old one. -/
theorem Arranged.overwrites (order : Precedes slots earlier slot)
    (meets : Intersect earlier.start earlier.size slot.start slot.size) :
    (∃ other, other.node = earlier.visit.reader ∧ Precedes slots other slot) ∨ earlier.visit.rest = [] ∧
      ∃ other, blocker slots slot = some other ∧
        (other.visit.rest ≠ [] ∨ Awaits calcNodes slots earlier.visit.calcNode slot) := by
  obtain ⟨other,isBlocker,ahead⟩ := arranged.blocker_covers order meets
  obtain ⟨isSlot,round⟩ := mem_blocker isBlocker
  by_cases alone : earlier.visit.rest = []
  · refine .inr ⟨alone,other,isBlocker,or_iff_not_imp_left.mpr fun single => ?_⟩
    obtain ⟨first,known,isFirst,sameRound,sameReach,begins⟩ := arranged.opened slot order.right
    refine ⟨first,known,isFirst,begins,other.visit.calcNode,?_,slots_calc_order isLayout ahead⟩
    rw [awaited,blocker_congr sameRound sameReach,isBlocker,Option.map_some,Visit.reader,not_not.mp single]
    rfl
  · have rounds : earlier.round < slot.round := by
      rcases ahead with rfl | ahead
      · omega
      · have before := arranged.before ahead
        unfold Before at before
        omega
    exact .inl (reader_placed isLayout arranged order.left order.right rounds alone)

end Rounds

section Layouts
variable (served : Served graph pool calcNodes peer) (isLayout : slots.map Slot.visit = visits calcNodes peer)
include served isLayout

theorem slots_nodup : (slots.map Slot.node).Nodup := by
  rw [slots_nodes isLayout]
  exact served.orderNodup

theorem slot_reads (known : slot ∈ slots) : pool.bufferNodeToCalc slot.node = some slot.visit.reader ∧
    ∀ node ∈ slot.node :: slot.visit.rest, graph.isBufferNode node = true :=
  served.reads (slot_visited isLayout known)

theorem slot_isBuffer (known : slot ∈ slots) : graph.isBufferNode slot.node = true :=
  (slot_reads served isLayout known).2 _ (.head _)

theorem slot_order (left : slot ∈ slots) (right : other ∈ slots)
    (order : Precedes (slots.map Slot.node) slot.node other.node) : Precedes slots slot other := by
  have nodup := slots_nodup served isLayout
  obtain ⟨a,b,order,isLeft,isRight⟩ := order.of_map
  rwa [inj_on_of_nodup_map nodup order.left left isLeft,inj_on_of_nodup_map nodup order.right right isRight] at order

variable (arranged : Arranged pool.poolSize slots)
include arranged

/-- From a calculation node, the order leads to later calculation nodes and to slots behind a group that waits. -/
theorem Ordered.from_calc (rendered : Rendered graph pool slots members) (plain : graph.isBufferNode reader = false)
    (ordered : Ordered calcNodes members reader node) : Precedes calcNodes reader node ∨
      ∃ slot ∈ slots, slot.node = node ∧ Awaits calcNodes slots reader slot := by
  have nodup := slots_nodup served isLayout
  have notPlaced : ∀ {x y}, graph.isBufferNode x = false → ¬Precedes members.placed x y := by
    intro x y isPlain before
    rw [rendered.placed_eq] at before
    obtain ⟨slot,known,rfl⟩ := mem_map.mp before.left
    rw [slot_isBuffer served isLayout known] at isPlain
    cases isPlain
  -- what one step does from a calculation node
  have fromPlain : ∀ {x y}, graph.isBufferNode x = false →
      (Precedes members.placed x y ∨ Precedes calcNodes x y ∨ (x,y) ∈ members.controlEdges) →
      Precedes calcNodes x y ∨ ∃ slot ∈ slots, slot.node = y ∧ slot.visit.isFirst = true ∧
        awaited slots slot = some x := by
    intro x y isPlain step
    rcases step with placed | listed | edge
    · exact absurd placed (notPlaced isPlain)
    · exact .inl listed
    · obtain ⟨slot,known,isNode,-,pre | ⟨isFirst,waits⟩⟩ := (rendered.edges x y).mp edge
      · obtain ⟨other,rfl,order⟩ := arranged.chained slot known x pre
        exact absurd (rendered.placed_eq ▸ order.map Slot.node) (notPlaced isPlain)
      · exact .inr ⟨slot,known,isNode,isFirst,waits⟩
  induction ordered with
  | single step =>
    rcases fromPlain plain step with listed | ⟨slot,known,isNode,isFirst,waits⟩
    · exact .inl listed
    · exact .inr ⟨slot,known,isNode,slot,known,isFirst,.inl rfl,reader,waits,.inl rfl⟩
  | tail before step ih =>
    rename_i x y
    rcases ih with listed | ⟨slot,known,rfl,awaits⟩
    · rcases fromPlain (served.plain x listed.right) step with further | ⟨slot,known,isNode,isFirst,waits⟩
      · exact .inl (listed.trans further served.nodup)
      · exact .inr ⟨slot,known,isNode,slot,known,isFirst,.inl rfl,x,waits,.inr listed⟩
    · -- among prefetch nodes every step goes to a slot that is placed later
      have buffer := slot_isBuffer served isLayout known
      obtain ⟨later,isNode,order⟩ : ∃ later, later.node = y ∧ Precedes slots slot later := by
        rcases step with placed | listed | edge
        · rw [rendered.placed_eq] at placed
          obtain ⟨later,isLater,rfl⟩ := mem_map.mp placed.right
          exact ⟨later,rfl,slot_order served isLayout known isLater placed⟩
        · rw [served.plain _ listed.left] at buffer
          cases buffer
        · obtain ⟨later,isLater,isNode,-,pre | ⟨-,waits⟩⟩ := (rendered.edges _ _).mp edge
          · obtain ⟨other,same,order⟩ := arranged.chained later isLater _ pre
            cases inj_on_of_nodup_map nodup order.left known same
            exact ⟨later,isNode,order⟩
          · obtain ⟨blocker,isBlocker,reads⟩ := Option.map_eq_some_iff.mp waits
            obtain ⟨inside,round⟩ := mem_blocker isBlocker
            have more : blocker.visit.rest ≠ [] := by
              intro none
              rw [Visit.reader,none] at reads
              have plain := served.plain _ (visits_placed (slot_visited isLayout inside)).1
              rw [show blocker.visit.calcNode = _ from reads,buffer] at plain
              cases plain
            obtain ⟨other,same,order⟩ := reader_placed isLayout arranged inside isLater (by omega) more
            cases inj_on_of_nodup_map nodup order.left known (same.trans reads)
            exact ⟨later,isNode,order⟩
      exact .inr ⟨later,order.right,isNode,awaits.later (Nodup.of_map _ nodup) order⟩

end Layouts

end Readers
variable [DecidableEq Node]

/-- The pool is safe exactly if, where a prefetch node reads what stands in the way of a tensor, the calculation nodes that
read what the tensor takes over are awaited by then. -/
theorem allocateSpaceInBufferPool_protected_iff (graph : Graph Node) (pool : BufferPool Node) (calcNodes listed : List Node)
    (bufferNodeItems : Node → List Node) (collected : Collected graph pool calcNodes bufferNodeItems)
    (sameStream : SameStream graph) (sized : Sized graph) (peer : Node → List (List Node))
    (grouped : doGroupBufferPoolNodes graph calcNodes bufferNodeItems = (listed,peer)) (logicEventNum : Nat)
    (members : Members Node)
    (succeeds : allocateSpaceInBufferPool graph pool peer listed (.start logicEventNum) = .ok members) :
    InPool pool members ∧ Protected pool listed members ↔
      ChainsCovered listed (layout graph pool.poolSize (visits listed peer)) := by
  have served := doGroup_served collected grouped
  have rendered := allocateSpaceInBufferPool_rendered sized (fun visit inside => (served.reads inside).1) succeeds
  generalize isSlots : layout graph pool.poolSize _ = slots at rendered ⊢
  have isLayout := isSlots ▸ layout_visits _
  have arranged := rendered.arranged
  constructor
  · rintro ⟨-,safe⟩ slot known other - - earlier - order meets alone
    have overwrites : Overwrites members earlier.space slot.space := ⟨rendered.offsets ▸ order.map Slot.space,meets⟩
    have reads := (slot_reads served isLayout order.left).1
    rw [Visit.reader,alone] at reads
    have plain := served.plain _ (visits_placed (slot_visited isLayout order.left)).1
    rcases (safe _ _ overwrites _ reads).from_calc served isLayout arranged rendered plain with
      listed | ⟨same,isSlot,isNode,awaits⟩
    · have isPlain : graph.isBufferNode slot.node = false := served.plain _ listed.right
      rw [slot_isBuffer served isLayout known] at isPlain
      cases isPlain
    · cases inj_on_of_nodup_map (slots_nodup served isLayout) isSlot known isNode
      exact awaits
  · intro covered
    refine ⟨?_,?_⟩
    · rw [InPool,rendered.offsets]
      intro space inside
      obtain ⟨slot,known,rfl⟩ := mem_map.mp inside
      obtain ⟨start,-,stop,reach⟩ := arranged.inside slot known
      exact ⟨start,stop.trans reach⟩
    · rintro earlier later ⟨order,meets⟩ reader reads
      rw [rendered.offsets] at order
      obtain ⟨old,slot,before,rfl,rfl⟩ := order.of_map
      obtain rfl : old.visit.reader = reader :=
        Option.some.inj ((slot_reads served isLayout before.left).1.symm.trans reads)
      rcases arranged.overwrites isLayout before meets with ⟨other,isReader,placed⟩ | ⟨alone,other,isBlocker,way⟩
      · rw [← isReader]
        exact .single (.inl (rendered.placed_eq ▸ placed.map Slot.node))
      · rw [Visit.reader,alone]
        exact (way.elim (covered slot before.right other isBlocker · old before.left before meets alone) id).ordered
          rendered sameStream

/-- Prefetch nodes `q`, `p1`, `p2`, `r` and calculation nodes `c0`, `c1`, `c2`. -/
inductive DemoNode where
  | q | p1 | p2 | r | c0 | c1 | c2
  deriving DecidableEq,Repr

def demoGraph : Graph DemoNode where
  name node := match node with
    | .q => "q" | .p1 => "p1" | .p2 => "p2" | .r => "r" | .c0 => "c0" | .c1 => "c1" | .c2 => "c2"
  ownerGraph _ := 0
  streamLabel _ := ""
  id _ := 0
  outputSize node := match node with
    | .p1 => some 1024
    | .r => some 1536
    | _ => some 512
  isBufferNode node := match node with
    | .q | .p1 | .p2 | .r => true
    | _ => false

/-- The prefetch `p1` feeds the prefetch `p2`. -/
def demoPool (poolSize : Int) : BufferPool DemoNode where
  poolSize := poolSize
  bufferNodeToCalc node := match node with
    | .q => some .c0
    | .p1 => some .p2
    | .p2 => some .c1
    | .r => some .c2
    | _ => none

def demoItems : DemoNode → List DemoNode
  | .c0 => [.q]
  | .p2 => [.p1]
  | .c1 => [.p2]
  | .c2 => [.r]
  | _ => []

def demoMembers : Members DemoNode where
  logicEventNum := 3
  memCtrlEvent := [("c1",1),("c2",2)]
  streamCtrlEvent := [("r",0)]
  nodeEventMultiplexing := [(.q,.sendTo .c0 0),(.p2,.sendTo .c1 1),(.r,.sendTo .c2 2),(.r,.recvFrom .p2 0)]
  bufferNodeLogicalOffset := [⟨.q,1536,0⟩,⟨.p1,2048,1536⟩,⟨.p2,1536,3584⟩,⟨.r,2560,0⟩]
  controlEdges := [(.q,.p1),(.p1,.p2),(.p2,.r),(.p2,.r)]

theorem demo_collected (poolSize : Int) (calcNodes : List DemoNode) (nodup : calcNodes.Nodup) :
    Collected demoGraph (demoPool poolSize) calcNodes demoItems := by
  refine ⟨nodup,?_,?_,?_⟩
  · intro calcNode _
    cases calcNode <;> decide
  · intro calcNode _
    cases calcNode <;> decide
  · have readers : ∀ calcNode, ∀ input ∈ demoItems calcNode, (demoPool 0).bufferNodeToCalc input = some calcNode := by
      intro calcNode
      cases calcNode <;> decide
    intro calcNode _ input inside
    exact readers calcNode input inside

def PositiveSizes (graph : Graph Node) : Prop := ∀ node size, graph.outputSize node = some size → 0 < size

theorem demo_sizes : PositiveSizes demoGraph := by
  intro node size known
  cases node <;> cases known <;> decide

/-- The tensor of `r` takes over the range of `q` and a part of that of `p1`. It waits for `p2`, which reads `p1`, but not
for `c0`, which reads `q`; even with the data edges and all readers nothing orders it. -/
theorem chained_prefetch_unprotected :
    Collected demoGraph (demoPool 5120) [.p2,.c0,.c1,.c2] demoItems ∧ SameStream demoGraph ∧ PositiveSizes demoGraph ∧
      allocateSpaceInBufferPool demoGraph (demoPool 5120) (doGroupBufferPoolNodes demoGraph [.p2,.c0,.c1,.c2] demoItems).2
        (doGroupBufferPoolNodes demoGraph [.p2,.c0,.c1,.c2] demoItems).1 (.start 0) = .ok demoMembers ∧
      ¬Protected (demoPool 5120) (doGroupBufferPoolNodes demoGraph [.p2,.c0,.c1,.c2] demoItems).1 demoMembers ∧
      ¬TransGen (fun a b => Precedes demoMembers.placed a b ∨ Precedes [.p2,.c0,.c1,.c2] a b ∨
        (a,b) ∈ demoMembers.controlEdges ∨ (demoPool 5120).bufferNodeToCalc a = some b) .c0 .r := by
  have unordered : ¬TransGen (fun a b => Precedes demoMembers.placed a b ∨ Precedes [.p2,.c0,.c1,.c2] a b ∨
      (a,b) ∈ demoMembers.controlEdges ∨ (demoPool 5120).bufferNodeToCalc a = some b) .c0 .r := by
    intro path
    have stays : ∀ node, TransGen (fun a b => Precedes demoMembers.placed a b ∨ Precedes [.p2,.c0,.c1,.c2] a b ∨
        (a,b) ∈ demoMembers.controlEdges ∨ (demoPool 5120).bufferNodeToCalc a = some b) .c0 node → node = .c1 ∨ node = .c2 := by
      intro node walk
      induction walk with
      | @single b step =>
        revert step
        cases b <;> decide
      | @tail a b _ step ih =>
        revert step
        rcases ih with rfl | rfl
        · cases b <;> decide
        · cases b <;> decide
    rcases stays .r path with same | same
    · cases same
    · cases same
  refine ⟨demo_collected 5120 _ (by decide),fun _ _ => ⟨rfl,rfl⟩,demo_sizes,by decide +kernel,?_,unordered⟩
  intro safe
  have ordered := safe ⟨.q,1536,0⟩ ⟨.r,2560,0⟩ ⟨by decide,by decide⟩ .c0 rfl
  refine unordered (TransGen.mono ?_ _ _ ordered)
  rintro a b (placed | listed | edge)
  · exact .inl placed
  · exact .inr (.inl (listed.mono (by decide)))
  · exact .inr (.inr (.inl edge))

def plainMembers : Members DemoNode where
  logicEventNum := 3
  memCtrlEvent := [("c0",0),("c2",1)]
  streamCtrlEvent := [("r",2)]
  nodeEventMultiplexing := [(.q,.sendTo .c0 0),(.r,.sendTo .c2 1),(.r,.recvFrom .c0 2)]
  bufferNodeLogicalOffset := [⟨.q,1536,0⟩,⟨.r,2560,0⟩]
  controlEdges := [(.c0,.r),(.q,.r)]

/-- In a pool of 3072 bytes the tensor of `r` takes over the range of `q` and waits for its reader. -/
theorem plain_prefetch_protected :
    Overwrites plainMembers ⟨.q,1536,0⟩ ⟨.r,2560,0⟩ ∧ InPool (demoPool 3072) plainMembers ∧
      Protected (demoPool 3072) (doGroupBufferPoolNodes demoGraph [.c0,.c2] demoItems).1 plainMembers := by
  refine ⟨⟨by decide,by decide⟩,(allocateSpaceInBufferPool_protected_iff demoGraph (demoPool 3072) [.c0,.c2] _ demoItems
    (demo_collected 3072 _ (by decide)) (fun _ _ => ⟨rfl,rfl⟩) (fun node size known => (demo_sizes node size known).le) _ rfl 0
    plainMembers (by decide +kernel)).mpr (by decide +kernel)⟩

end GraphEngine.Prefetch
