import GraphEngine.Lib.AddedEdges
import GraphEngine.Prefetch.Protection

/-! The control edges of the pass and cycles. Every added edge leads to a prefetch node placed behind what it waits for. A
cycle needs a prefetch that waits for the calculation node it feeds, which happens where the ring turns back between two
inputs of one calculation node. -/

namespace GraphEngine.Prefetch
open Lib Relation List
variable {Node : Type} {graph : Graph Node} {pool : BufferPool Node}

/-- The graph before the pass: it has no cycle, the calculation nodes are in a topological order, a prefetch node comes
before its reader and leads to calculation nodes only through the one it is placed for or through prefetch nodes, and nothing
orders it before one that is placed earlier. -/
structure Wired (edge : Node → Node → Prop) (pool : BufferPool Node) (calcNodes : List Node) (peer : Node → List (List Node)) :
    Prop where
  acyclic : Acyclic edge
  topological : ∀ a b, Precedes calcNodes a b → ¬TransGen edge b a
  feeds : ∀ node reader, node ∈ placeOrder calcNodes peer → pool.bufferNodeToCalc node = some reader → TransGen edge node reader
  oneConsumer : ∀ calcNode ∈ calcNodes, ∀ node ∈ (peer calcNode).flatten, ∀ next, edge node next →
    next ∈ placeOrder calcNodes peer ∨ ∀ other ∈ calcNodes, ReflTransGen edge next other → ReflTransGen edge calcNode other
  forward : ∀ a b, Precedes (placeOrder calcNodes peer) a b → ¬TransGen edge b a

def NoOwnWait (calcNodes : List Node) (peer : Node → List (List Node)) (members : Members Node) : Prop :=
  ∀ calcNode ∈ calcNodes, ∀ node ∈ (peer calcNode).flatten, (calcNode,node) ∉ members.controlEdges

/-- Where the ring turns back between two inputs of a calculation node, the node does not read what stands in the way of the
second one, or a control edge between them is not added. -/
def NoOwnBlocker (graph : Graph Node) (slots : List (Slot Node)) : Prop :=
  ∀ slot ∈ slots, slot.visit.isFirst = true → awaited slots slot = some slot.visit.calcNode →
    ¬Joins graph slot.visit.calcNode slot.node

instance [DecidableEq Node] {slots : List (Slot Node)} : Decidable (NoOwnBlocker graph slots) :=
  inferInstanceAs (Decidable (∀ slot ∈ slots, _))

def Rewired (edge : Node → Node → Prop) (members : Members Node) : Node → Node → Prop :=
  WithEdges edge fun a b => (a,b) ∈ members.controlEdges

section Cycles
variable {edge : Node → Node → Prop} {calcNodes : List Node} {peer : Node → List (List Node)} {members : Members Node}
  {calcNode node a b : Node}

theorem Feeds.path {group : List Node}
    (ordered : ∀ node ∈ group, ∀ reader, pool.bufferNodeToCalc node = some reader → TransGen edge node reader)
    (feeds : Feeds pool group calcNode) (inside : node ∈ group) : TransGen edge node calcNode := by
  induction group generalizing node with
  | nil => cases inside
  | cons first rest ih =>
    have further : ∀ node ∈ rest, TransGen edge node calcNode := by
      intro node known
      exact ih (fun node known => ordered node (.tail _ known)) feeds.2 known
    rcases mem_cons.mp inside with rfl | later
    · have step := ordered node (.head _) _ feeds.1
      cases rest with
      | nil => exact step
      | cons next rest => exact step.trans (further next (.head _))
    · exact further node later

theorem Served.not_placed (served : Served graph pool calcNodes peer) (known : calcNode ∈ calcNodes) :
    calcNode ∉ placeOrder calcNodes peer := by
  rw [← visits_nodes]
  intro placed
  obtain ⟨visit,inside,rfl⟩ := mem_map.mp placed
  have buffer := (served.reads inside).2 visit.node (.head _)
  rw [served.plain _ known] at buffer
  cases buffer

theorem precedes_of_reach {order : List Node} (sorted : ∀ a b, Precedes order a b → ¬TransGen edge b a) (left : a ∈ order)
    (right : b ∈ order) (reach : ReflTransGen edge a b) : a = b ∨ Precedes order a b := by
  rcases Precedes.total left right with same | before | after
  · exact .inl same
  · exact .inr before
  · rcases reflTransGen_iff_eq_or_transGen.mp reach with same | path
    · exact .inl same.symm
    · exact absurd path (sorted b a after)

variable (served : Served graph pool calcNodes peer)
include served

theorem Served.calc_order {p q : Node}
    (before : a = b ∨ Precedes (placeOrder calcNodes peer) a b) (knownP : p ∈ calcNodes) (knownQ : q ∈ calcNodes)
    (left : a ∈ (peer p).flatten) (right : b ∈ (peer q).flatten) : p = q ∨ Precedes calcNodes p q := by
  rcases before with rfl | before
  · exact .inl (part_unique served.orderNodup knownP knownQ left right)
  · rcases before.of_flatMap with ⟨part,known,inside⟩ | ⟨p',q',ordered,inP,inQ⟩
    · left
      rw [part_unique served.orderNodup knownP known left inside.left]
      exact part_unique served.orderNodup known knownQ inside.right right
    · right
      rw [part_unique served.orderNodup knownP ordered.left left inP,part_unique served.orderNodup knownQ ordered.right right inQ]
      exact ordered

theorem Wired.calc_later (wired : Wired edge pool calcNodes peer) {other : Node} (isOther : other ∈ calcNodes)
    (path : TransGen edge node other) (known : calcNode ∈ calcNodes) (placed : node ∈ (peer calcNode).flatten) :
    calcNode = other ∨ Precedes calcNodes calcNode other := by
  induction path using TransGen.head_induction_on generalizing calcNode with
  | single step =>
    rcases wired.oneConsumer calcNode known _ placed _ step with isPlaced | through
    · exact absurd isPlaced (served.not_placed isOther)
    · exact precedes_of_reach wired.topological known isOther (through other isOther .refl)
  | head step path ih =>
    rename_i node next
    rcases wired.oneConsumer calcNode known _ placed _ step with isPlaced | through
    · obtain ⟨target,isTarget,inTarget⟩ := mem_flatMap.mp isPlaced
      have here : node ∈ placeOrder calcNodes peer := mem_flatMap.mpr ⟨calcNode,known,placed⟩
      have order := served.calc_order (precedes_of_reach wired.forward here isPlaced (.single step)) known isTarget placed inTarget
      rcases ih isTarget inTarget with rfl | later
      · exact order
      · rcases order with rfl | order
        · exact .inr later
        · exact .inr (order.trans later served.nodup)
    · exact precedes_of_reach wired.topological known isOther (through other isOther path.to_reflTransGen)

section Layouts
variable {slots : List (Slot Node)} (isLayout : slots.map Slot.visit = visits calcNodes peer)
  (rendered : Rendered graph pool slots members)
include isLayout rendered

theorem noOwnWait_iff : NoOwnWait calcNodes peer members ↔ NoOwnBlocker graph slots := by
  constructor
  · intro noOwnWait slot known isFirst waits joins
    obtain ⟨isCalc,inside⟩ := visits_placed (slot_visited isLayout known)
    exact noOwnWait _ isCalc _ inside ((rendered.edges _ _).mpr ⟨slot,known,rfl,joins,.inr ⟨isFirst,waits⟩⟩)
  · intro clear calcNode known node inside own
    obtain ⟨slot,isSlot,rfl,joins,pre | ⟨isFirst,waits⟩⟩ := (rendered.edges _ _).mp own
    · obtain ⟨other,rfl,order⟩ := rendered.arranged.chained slot isSlot _ pre
      refine absurd ?_ (served.not_placed known)
      rw [← slots_nodes isLayout]
      exact mem_map_of_mem order.left
    · obtain ⟨isCalc,placed⟩ := visits_placed (slot_visited isLayout isSlot)
      cases part_unique served.orderNodup isCalc known placed inside
      exact clear slot isSlot isFirst waits joins

variable (wired : Wired edge pool calcNodes peer)
include wired

/-- The prefetch nodes at the ends of the added edges are placed one after the other along every path. -/
theorem rises_of_noOwnWait (noOwnWait : NoOwnWait calcNodes peer members) :
    Rises edge (fun a b => (a,b) ∈ members.controlEdges) (Precedes (placeOrder calcNodes peer)) := by
  have nodes := slots_nodes isLayout
  intro a b c d first reach last
  obtain ⟨slot,known,rfl,-,-⟩ := (rendered.edges _ _).mp first
  obtain ⟨later,isLater,rfl,-,way⟩ := (rendered.edges _ _).mp last
  obtain ⟨isTarget,inTarget⟩ := visits_placed (slot_visited isLayout known)
  obtain ⟨isCalc,inside⟩ := visits_placed (slot_visited isLayout isLater)
  have here : slot.node ∈ placeOrder calcNodes peer := mem_flatMap.mpr ⟨_,isTarget,inTarget⟩
  have through : (∃ other, other.node = c ∧ Precedes slots other later) →
      Precedes (placeOrder calcNodes peer) slot.node later.node := by
    rintro ⟨other,rfl,order⟩
    have before : Precedes (placeOrder calcNodes peer) other.node later.node := nodes ▸ order.map Slot.node
    rcases precedes_of_reach wired.forward here before.left reach with same | ahead
    · rwa [same]
    · exact ahead.trans before served.orderNodup
  rcases way with pre | ⟨-,waits⟩
  · exact through (rendered.arranged.chained later isLater c pre)
  · obtain ⟨other,isBlocker,rfl⟩ := Option.map_eq_some_iff.mp waits
    obtain ⟨isOther,round⟩ := mem_blocker isBlocker
    by_cases alone : other.visit.rest = []
    · -- a calculation node: it stands between the ones that the two prefetch nodes are placed for
      have isReader : other.visit.reader = other.visit.calcNode := by
        rw [Visit.reader,alone]
        rfl
      rw [isReader] at reach last
      have isSource := (visits_placed (slot_visited isLayout isOther)).1
      have path : TransGen edge slot.node other.visit.calcNode := by
        rcases reflTransGen_iff_eq_or_transGen.mp reach with same | path
        · rw [← same] at here
          exact absurd here (served.not_placed isSource)
        · exact path
      have upper : Precedes calcNodes other.visit.calcNode later.visit.calcNode := by
        rcases slots_calc_order isLayout (.inr (rendered.arranged.precedes isOther isLater (by omega))) with same | upper
        · rw [same] at last
          exact absurd last (noOwnWait _ isCalc _ inside)
        · exact upper
      have order : Precedes calcNodes slot.visit.calcNode later.visit.calcNode := by
        rcases wired.calc_later served isSource path isTarget inTarget with same | lower
        · rwa [same]
        · exact lower.trans upper served.nodup
      exact order.flatMap inTarget inside
    · exact through (reader_placed isLayout rendered.arranged isOther isLater (by omega) alone)

end Layouts
end Cycles

variable [DecidableEq Node]

/-- Prefetch nodes `x`, `a`, `b` and calculation nodes `c0` and `c`. -/
inductive WrapNode where
  | x | a | b | c0 | c
  deriving DecidableEq,Repr

def wrapGraph : Graph WrapNode where
  name node := match node with
    | .x => "x" | .a => "a" | .b => "b" | .c0 => "c0" | .c => "c"
  ownerGraph _ := 0
  streamLabel _ := ""
  id _ := 0
  outputSize node := match node with
    | .b => some 3584
    | _ => some 2048
  isBufferNode node := match node with
    | .x | .a | .b => true
    | _ => false

/-- `x` feeds `c0`; `a` and `b` feed `c`. -/
def wrapReader : WrapNode → Option WrapNode
  | .x => some .c0
  | .a | .b => some .c
  | _ => none

def wrapPool (poolSize : Int) : BufferPool WrapNode := ⟨poolSize,wrapReader⟩

def wrapItems : WrapNode → List WrapNode
  | .c0 => [.x]
  | .c => [.a,.b]
  | _ => []

def wrapEdge (node next : WrapNode) : Prop := wrapReader node = some next

instance (node next : WrapNode) : Decidable (wrapEdge node next) := inferInstanceAs (Decidable (_ = _))

theorem wrap_collected (poolSize : Int) (calcNodes : List WrapNode) (nodup : calcNodes.Nodup) :
    Collected wrapGraph (wrapPool poolSize) calcNodes wrapItems := by
  refine ⟨nodup,?_,?_,?_⟩
  · intro calcNode _
    cases calcNode <;> decide
  · intro calcNode _
    cases calcNode <;> decide
  · have readers : ∀ calcNode, ∀ input ∈ wrapItems calcNode, wrapReader input = some calcNode := by
      intro calcNode
      cases calcNode <;> decide
    intro calcNode _ input inside
    exact readers calcNode input inside

theorem wrap_sized : Sized wrapGraph := by
  intro node size known
  cases node <;> cases known <;> decide

theorem wrap_path {node next : WrapNode} : TransGen wrapEdge node next ↔ wrapEdge node next := by
  refine ⟨?_,.single⟩
  intro path
  induction path with
  | single step => exact step
  | @tail middle last _ step ih =>
    revert ih step
    cases node <;> cases middle <;> cases last <;> decide

theorem wrap_wired (poolSize : Int) (calcNodes : List WrapNode) (order : calcNodes = [.c0,.c] ∨ calcNodes = [.c,.c0]) :
    Wired wrapEdge (wrapPool poolSize) (doGroupBufferPoolNodes wrapGraph calcNodes wrapItems).1
      (doGroupBufferPoolNodes wrapGraph calcNodes wrapItems).2 := by
  refine ⟨?_,?_,?_,?_,?_⟩
  · intro node cycle
    have step := wrap_path.mp cycle
    revert step
    cases node <;> decide
  · intro node next before path
    have step := wrap_path.mp path
    revert before step
    rcases order with rfl | rfl <;> cases node <;> cases next <;> decide
  · intro node reader _ reads
    exact .single reads
  · intro calcNode _ node placed next step
    right
    intro other _ reach
    have same : next = calcNode := by
      revert placed step
      rcases order with rfl | rfl <;> cases calcNode <;> cases node <;> cases next <;> decide
    rw [← same]
    exact reach
  · intro node next before path
    have step := wrap_path.mp path
    revert before step
    rcases order with rfl | rfl <;> cases node <;> cases next <;> decide

def wrapMembers : Members WrapNode where
  logicEventNum := 2
  memCtrlEvent := [("c",1)]
  streamCtrlEvent := [("b",0)]
  nodeEventMultiplexing := [(.x,.sendTo .c0 0),(.b,.sendTo .c 1),(.b,.recvFrom .c 0)]
  bufferNodeLogicalOffset := [⟨.x,3072,0⟩,⟨.a,3072,3072⟩,⟨.b,4608,0⟩]
  controlEdges := [(.x,.a),(.c,.b),(.a,.b)]

/-- What the pass leaves if `c` is listed first. -/
def turnedMembers : Members WrapNode where
  logicEventNum := 3
  memCtrlEvent := [("c",0),("c0",1)]
  streamCtrlEvent := [("x",2)]
  nodeEventMultiplexing := [(.b,.sendTo .c 0),(.x,.sendTo .c0 1),(.x,.recvFrom .c 2)]
  bufferNodeLogicalOffset := [⟨.a,3072,0⟩,⟨.b,4608,3072⟩,⟨.x,3072,0⟩]
  controlEdges := [(.a,.b),(.c,.x),(.b,.x)]

end GraphEngine.Prefetch
