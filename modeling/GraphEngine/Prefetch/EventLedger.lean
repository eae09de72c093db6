import GraphEngine.Lib.EventReuse
import GraphEngine.Prefetch.Acyclic

/-! How the pass hands event ids on. The two queues hold the last uses of the ids that may be used again, each under the node
that receives it; an id goes from a prefetch node to a calculation node and back, later and later. -/

namespace GraphEngine.Prefetch
open Lib List EventMark
variable {Node : Type} {graph : Graph Node} {pool : BufferPool Node}

def EventMark.event : EventMark Node → Nat
  | .sendTo _ logicEvent => logicEvent
  | .recvFrom _ logicEvent => logicEvent

def EventMark.calcNode : EventMark Node → Node
  | .sendTo calcNode _ => calcNode
  | .recvFrom dependentNode _ => dependentNode

def EventMark.isSend : EventMark Node → Bool
  | .sendTo _ _ => true
  | .recvFrom _ _ => false

@[simp] theorem sendTo_isSend (calcNode : Node) (event : Nat) : (sendTo calcNode event).isSend = true := rfl

@[simp] theorem recvFrom_isSend (node : Node) (event : Nat) : (recvFrom node event).isSend = false := rfl

def eventId (use : Node × EventMark Node) : Nat := use.2.event

def sender (use : Node × EventMark Node) : Node := if use.2.isSend then use.1 else use.2.calcNode

def receiver (use : Node × EventMark Node) : Node := if use.2.isSend then use.2.calcNode else use.1

def eventQueue (graph : Graph Node) (uses : List (Node × EventMark Node)) : List (String × Nat) :=
  uses.map fun use => (graph.name (receiver use),eventId use)

def Handover (calcNodes order : List Node) (old new : Node × EventMark Node) : Prop :=
  old.2.isSend ≠ new.2.isSend ∧ Precedes order old.1 new.1 ∧ Precedes calcNodes old.2.calcNode new.2.calcNode

theorem generateEventId_cases (graph : Graph Node) (nodeName : String) (uses : List (Node × EventMark Node))
    (logicEventNum : Nat) :
    generateEventId nodeName (eventQueue graph uses) logicEventNum =
        (logicEventNum,eventQueue graph uses,(logicEventNum + 1) % twoPow32) ∨
      ∃ use rest, uses = use :: rest ∧ graph.name (receiver use) ≠ nodeName ∧
        generateEventId nodeName (eventQueue graph uses) logicEventNum = (eventId use,eventQueue graph rest,logicEventNum) := by
  cases uses with
  | nil => exact .inl rfl
  | cons use rest =>
    simp only [eventQueue,map_cons,generateEventId]
    by_cases same : graph.name (receiver use) = nodeName
    · exact .inl (if_neg (not_not_intro same))
    · exact .inr ⟨use,rest,rfl,same,if_pos same⟩

/-- A use is issued when its prefetch node is visited: as the last input of a calculation node, or to wait for one that is
listed earlier. -/
def Issued (calcNodes : List Node) (done : List (Visit Node)) (use : Node × EventMark Node) : Prop :=
  ∃ visit ∈ done, visit.node = use.1 ∧
    if use.2.isSend then visit.calcNode = use.2.calcNode ∧ visit.isLast = true
    else Precedes calcNodes use.2.calcNode visit.calcNode

theorem Issued.append {calcNodes : List Node} {done : List (Visit Node)} {use : Node × EventMark Node}
    (issued : Issued calcNodes done use) (visit : Visit Node) : Issued calcNodes (done ++ [visit]) use := by
  obtain ⟨other,known,rest⟩ := issued
  exact ⟨other,mem_append_left _ known,rest⟩

def Counted (start : Nat) (members : Members Node) : Prop :=
  ∃ created ≤ members.nodeEventMultiplexing.length, members.logicEventNum = (start + created) % twoPow32 ∧
    ∀ use ∈ members.nodeEventMultiplexing, ∃ i < created, eventId use = (start + i) % twoPow32

structure Tracked (graph : Graph Node) (calcNodes order : List Node) (start : Nat) (done : List (Visit Node))
    (members : Members Node) (mem stream : List (Node × EventMark Node)) : Prop where
  ledger : Ledger eventId (Handover calcNodes order) members.nodeEventMultiplexing (mem ++ stream)
  memQueue : members.memCtrlEvent = eventQueue graph mem
  streamQueue : members.streamCtrlEvent = eventQueue graph stream
  memOrder : mem.Pairwise fun old new => Precedes calcNodes old.2.calcNode new.2.calcNode
  sends : ∀ use ∈ mem, use.2.isSend = true
  waits : ∀ use ∈ stream, use.2.isSend = false
  issued : ∀ use ∈ members.nodeEventMultiplexing, Issued calcNodes done use
  counted : Counted start members

/-- Of the visits before one: their prefetch nodes are placed earlier, their calculation nodes are listed no later, and
earlier if complete. -/
structure Turn (calcNodes order : List Node) (done : List (Visit Node)) (visit : Visit Node) : Prop where
  nodup : calcNodes.Nodup
  placed : ∀ earlier ∈ done, Precedes order earlier.node visit.node
  listed : ∀ earlier ∈ done, earlier.calcNode = visit.calcNode ∨ Precedes calcNodes earlier.calcNode visit.calcNode
  complete : ∀ earlier ∈ done, earlier.isLast = true → Precedes calcNodes earlier.calcNode visit.calcNode

section Counter
variable {start : Nat} {members : Members Node}

theorem Counted.fresh (counted : Counted start members) (few : members.nodeEventMultiplexing.length < twoPow32) :
    ∀ use ∈ members.nodeEventMultiplexing, eventId use ≠ members.logicEventNum := by
  obtain ⟨created,bound,isNext,known⟩ := counted
  intro use inside same
  obtain ⟨i,less,isEvent⟩ := known use inside
  rw [isEvent,isNext] at same
  simp only [twoPow32] at same few
  omega

theorem Counted.next (counted : Counted start members) {members' : Members Node} {use : Node × EventMark Node}
    (marks : members'.nodeEventMultiplexing = members.nodeEventMultiplexing ++ [use])
    (event : eventId use = members.logicEventNum ∧ members'.logicEventNum = (members.logicEventNum + 1) % twoPow32 ∨
      (∃ old ∈ members.nodeEventMultiplexing, eventId use = eventId old) ∧ members'.logicEventNum = members.logicEventNum) :
    Counted start members' := by
  obtain ⟨created,bound,isNext,known⟩ := counted
  rcases event with ⟨isNew,next⟩ | ⟨⟨old,inside,isOld⟩,next⟩
  · refine ⟨created + 1,by simp [marks,bound],?_,?_⟩
    · rw [next,isNext]
      simp only [twoPow32]
      omega
    · intro other inside
      rw [marks] at inside
      rcases mem_append.mp inside with inside | inside
      · obtain ⟨i,less,isEvent⟩ := known other inside
        exact ⟨i,by omega,isEvent⟩
      · rw [mem_singleton.mp inside,isNew]
        exact ⟨created,by omega,isNext⟩
  · refine ⟨created,by simp only [marks,length_append]; omega,next.trans isNext,?_⟩
    intro other inside'
    rw [marks] at inside'
    rcases mem_append.mp inside' with inside' | inside'
    · exact known other inside'
    · rw [mem_singleton.mp inside',isOld]
      exact known old inside

end Counter

section Steps
variable {calcNodes order : List Node} {start : Nat} {done : List (Visit Node)} {members : Members Node}
  {mem stream : List (Node × EventMark Node)} {visit : Visit Node}

section

variable (tracked : Tracked graph calcNodes order start done members mem stream)
include tracked

theorem Tracked.append (visit : Visit Node) : Tracked graph calcNodes order start (done ++ [visit]) members mem stream :=
  { tracked with issued := fun use known => (tracked.issued use known).append visit }

theorem Tracked.send (turn : Turn calcNodes order done visit) (isLast : visit.isLast = true)
    (few : members.nodeEventMultiplexing.length < twoPow32) :
    ∃ event stream', Tracked graph calcNodes order start (done ++ [visit])
      (sendToCalcNode graph visit.node visit.calcNode members)
      (mem ++ [(visit.node,.sendTo visit.calcNode event)]) stream' := by
  have issuedNew : ∀ event, Issued calcNodes (done ++ [visit]) (visit.node,.sendTo visit.calcNode event) := by
    intro event
    exact ⟨visit,by simp,rfl,rfl,isLast⟩
  have issued : ∀ event, ∀ use ∈ members.nodeEventMultiplexing ++ [(visit.node,.sendTo visit.calcNode event)],
      Issued calcNodes (done ++ [visit]) use := by
    intro event
    exact forall_mem_append.mpr ⟨fun use known => (tracked.issued use known).append visit,
      forall_mem_singleton.mpr (issuedNew event)⟩
  have sends : ∀ event, ∀ use ∈ mem ++ [(visit.node,.sendTo visit.calcNode event)], use.2.isSend = true :=
    fun _ => forall_mem_append.mpr ⟨tracked.sends,forall_mem_singleton.mpr rfl⟩
  have memOrder : ∀ event, (mem ++ [(visit.node,sendTo visit.calcNode event)]).Pairwise
      fun old new => Precedes calcNodes old.2.calcNode new.2.calcNode := by
    intro event
    refine pairwise_append.mpr ⟨tracked.memOrder,pairwise_singleton _ _,?_⟩
    intro old known new isNew
    rw [mem_singleton.mp isNew]
    obtain ⟨earlier,inside,-,mark⟩ := tracked.issued old (tracked.ledger.issued (mem_append_left _ known))
    rw [if_pos (tracked.sends old known)] at mark
    exact mark.1 ▸ turn.complete earlier inside mark.2
  unfold sendToCalcNode
  rcases generateEventId_cases graph (graph.name visit.node) stream members.logicEventNum with new | ⟨old,stream',rfl,other,taken⟩
  · rw [← tracked.streamQueue] at new
    rw [new]
    refine ⟨members.logicEventNum,stream,?_,?_,tracked.streamQueue,memOrder _,sends _,tracked.waits,issued _,?_⟩
    · refine (tracked.ledger.fresh (visit.node,.sendTo visit.calcNode members.logicEventNum) (tracked.counted.fresh few)).perm ?_
      rw [append_assoc,append_assoc]
      exact List.Perm.append_left _ perm_append_comm
    · simp [eventQueue,tracked.memQueue,receiver,eventId,calcNode,event]
    · exact tracked.counted.next rfl (.inl ⟨rfl,rfl⟩)
  · rw [← tracked.streamQueue] at taken
    rw [taken]
    have live : old ∈ mem ++ old :: stream' := by simp
    have isWait : old.2.isSend = false := tracked.waits old (.head _)
    refine ⟨eventId old,stream',?_,?_,rfl,memOrder _,sends _,fun use known => tracked.waits use (.tail _ known),issued _,?_⟩
    · obtain ⟨earlier,inside,isNode,mark⟩ := tracked.issued old (tracked.ledger.issued live)
      rw [if_neg (by simp [isWait])] at mark
      have handed : Handover calcNodes order old (visit.node,.sendTo visit.calcNode (eventId old)) := by
        refine ⟨by simp [isWait],isNode ▸ turn.placed earlier inside,?_⟩
        rcases turn.listed earlier inside with same | before
        · rw [same] at mark
          exact mark
        · exact mark.trans before turn.nodup
      have front := tracked.ledger.perm perm_middle
      refine (front.reuse (visit.node,.sendTo visit.calcNode (eventId old)) rfl handed).perm ?_
      rw [append_assoc,append_assoc]
      exact List.Perm.append_left _ perm_append_comm
    · simp [eventQueue,tracked.memQueue,receiver,eventId,calcNode,event]
    · exact tracked.counted.next rfl (.inr ⟨⟨old,tracked.ledger.issued live,rfl⟩,rfl⟩)

end

/-- A prefetch node waits for a calculation node whose own id is still in the queue: it takes an id that an earlier one has
received, or a new one. -/
theorem Tracked.wait (tracked : Tracked graph calcNodes order start (done ++ [visit]) members mem stream)
    (turn : Turn calcNodes order done visit) {dependent : Node} (earlier : Precedes calcNodes dependent visit.calcNode)
    (owned : ∃ use ∈ mem, use.2.calcNode = dependent) (few : members.nodeEventMultiplexing.length < twoPow32) :
    ∃ event mem', Tracked graph calcNodes order start (done ++ [visit]) (recvFromDependent graph dependent visit.node members)
      mem' (stream ++ [(visit.node,.recvFrom dependent event)]) ∧
      ∀ use ∈ mem, use ∈ mem' ∨ Precedes calcNodes use.2.calcNode dependent := by
  have issued : ∀ event, ∀ use ∈ members.nodeEventMultiplexing ++ [(visit.node,.recvFrom dependent event)],
      Issued calcNodes (done ++ [visit]) use := by
    intro event
    exact forall_mem_append.mpr ⟨tracked.issued,forall_mem_singleton.mpr ⟨visit,by simp,rfl,earlier⟩⟩
  have waits : ∀ event, ∀ use ∈ stream ++ [(visit.node,.recvFrom dependent event)], use.2.isSend = false :=
    fun _ => forall_mem_append.mpr ⟨tracked.waits,forall_mem_singleton.mpr rfl⟩
  unfold recvFromDependent
  rcases generateEventId_cases graph (graph.name dependent) mem members.logicEventNum with new | ⟨old,mem',rfl,other,taken⟩
  · rw [← tracked.memQueue] at new
    rw [new]
    refine ⟨members.logicEventNum,mem,⟨?_,tracked.memQueue,?_,tracked.memOrder,tracked.sends,waits _,issued _,?_⟩,?_⟩
    · rw [← append_assoc]
      exact tracked.ledger.fresh (visit.node,.recvFrom dependent members.logicEventNum) (tracked.counted.fresh few)
    · simp [eventQueue,tracked.streamQueue,receiver,eventId,event]
    · exact tracked.counted.next rfl (.inl ⟨rfl,rfl⟩)
    · intro use known
      exact .inl known
  · rw [← tracked.memQueue] at taken
    rw [taken]
    have live : old ∈ old :: mem' ++ stream := by simp
    have isSend : old.2.isSend = true := tracked.sends old (.head _)
    obtain ⟨first,others⟩ := pairwise_cons.mp tracked.memOrder
    -- the owner of the front is listed before the node that is waited for, whose own id is behind it
    have before : Precedes calcNodes old.2.calcNode dependent := by
      obtain ⟨use,known,isDependent⟩ := owned
      rcases mem_cons.mp known with rfl | known
      · rw [receiver,if_pos isSend,isDependent] at other
        exact absurd rfl other
      · exact isDependent ▸ first use known
    refine ⟨eventId old,mem',⟨?_,rfl,?_,others,fun use known => tracked.sends use (.tail _ known),waits _,issued _,?_⟩,?_⟩
    · obtain ⟨visit',inside,isNode,mark⟩ := tracked.issued old (tracked.ledger.issued live)
      rw [if_pos isSend] at mark
      have placed : Precedes order old.1 visit.node := by
        rcases mem_append.mp inside with inside | inside
        · exact isNode ▸ turn.placed visit' inside
        · rw [mem_singleton.mp inside] at mark
          rw [← mark.1] at before
          exact absurd earlier (before.asymm turn.nodup)
      have handed : Handover calcNodes order old (visit.node,.recvFrom dependent (eventId old)) :=
        ⟨by simp [isSend],placed,before⟩
      rw [← append_assoc]
      exact tracked.ledger.reuse (visit.node,.recvFrom dependent (eventId old)) rfl handed
    · simp [eventQueue,tracked.streamQueue,receiver,eventId,event]
    · exact tracked.counted.next rfl (.inr ⟨⟨old,tracked.ledger.issued live,rfl⟩,rfl⟩)
    · exact forall_mem_cons.mpr ⟨.inr before,fun _ => .inl⟩

end Steps
end GraphEngine.Prefetch
