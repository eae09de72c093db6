import GraphEngine.Prefetch.EventLedger

/-! The events of the pool in every execution. Prefetch nodes run in the order of their placement and calculation nodes in
that of the list; each passes its waits, runs and sends. While the counter does not wrap, an id is not sent again before the
wait for its last send has been passed. -/

namespace GraphEngine.Prefetch
open Lib Relation List
variable {Node : Type} {graph : Graph Node} {pool : BufferPool Node}

section Visiting
variable {calcNodes : List Node} {peer : Node → List (List Node)}

def NoChain (graph : Graph Node) (pool : BufferPool Node) : Prop :=
  ∀ node reader, pool.bufferNodeToCalc node = some reader → graph.isBufferNode reader = false

variable {visit : Visit Node} {done rest : List (Visit Node)} {start : Nat} {members : Members Node}
  {mem stream : List (Node × EventMark Node)}

section

variable (noChain : NoChain graph pool)
include noChain

theorem NoChain.reader (served : Served graph pool calcNodes peer)
    (known : visit ∈ visits calcNodes peer) : pool.bufferNodeToCalc visit.node = some visit.calcNode := by
  obtain ⟨reads,buffer⟩ := served.reads known
  have plain := noChain _ _ reads
  cases isRest : visit.rest with
  | nil => rwa [Visit.reader,isRest] at reads
  | cons next rest =>
    rw [Visit.reader,isRest,headD_cons,buffer next (by simp [isRest])] at plain
    cases plain

theorem NoChain.placed (served : Served graph pool calcNodes peer) {node reader : Node}
    (known : node ∈ placeOrder calcNodes peer) (reads : pool.bufferNodeToCalc node = some reader) :
    reader ∈ calcNodes ∧ node ∈ (peer reader).flatten := by
  rw [← visits_nodes] at known
  obtain ⟨visit,inside,rfl⟩ := mem_map.mp known
  rw [noChain.reader served inside] at reads
  cases reads
  exact visits_placed inside

theorem NoChain.reader_order (served : Served graph pool calcNodes peer) {a b p q : Node}
    (before : Precedes (placeOrder calcNodes peer) a b) (readsA : pool.bufferNodeToCalc a = some p)
    (readsB : pool.bufferNodeToCalc b = some q) : p = q ∨ Precedes calcNodes p q := by
  obtain ⟨knownP,inP⟩ := noChain.placed served before.left readsA
  obtain ⟨knownQ,inQ⟩ := noChain.placed served before.right readsB
  exact served.calc_order (.inr before) knownP knownQ inP inQ

end

theorem Served.turn (served : Served graph pool calcNodes peer)
    (split : visits calcNodes peer = done ++ visit :: rest) : Turn calcNodes (placeOrder calcNodes peer) done visit := by
  have before : ∀ earlier ∈ done, Precedes (visits calcNodes peer) earlier visit := by
    intro earlier known
    rw [split]
    exact Precedes.across known (.head _)
  refine ⟨served.nodup,?_,?_,?_⟩
  · intro earlier known
    rw [← visits_nodes]
    exact (before earlier known).map Visit.node
  · intro earlier known
    rcases visits_order (before earlier known) with ⟨same,-⟩ | ordered
    · exact .inl same
    · exact .inr ordered
  · intro earlier known isLast
    rcases visits_order (before earlier known) with ⟨-,notLast⟩ | ordered
    · rw [isLast] at notLast
      cases notLast
    · exact ordered

/-- Every complete calculation node that reads a range in the ring has its id in the queue. -/
def Owned (pool : BufferPool Node) (done : List (Visit Node)) (ring : List Node) (mem : List (Node × EventMark Node)) : Prop :=
  ∀ node ∈ ring, ∀ visit ∈ done, visit.isLast = true → pool.bufferNodeToCalc node = some visit.calcNode →
    ∃ use ∈ mem, use.2.calcNode = visit.calcNode

/-- The run so far. The events are tracked if no prefetch waits for its own calculation node and the counter has not
wrapped. -/
structure EventsKept (graph : Graph Node) (pool : BufferPool Node) (calcNodes : List Node) (peer : Node → List (List Node))
    (start : Nat) (done : List (Visit Node)) (placing : Placing Node) : Prop where
  ring : (ringNodes placing.nodeMemRangeInPool).Sublist (done.map Visit.node)
  placed : placing.members.placed = done.map Visit.node
  tracked : NoOwnWait calcNodes peer placing.members → placing.members.nodeEventMultiplexing.length ≤ twoPow32 →
    ∃ mem stream, Tracked graph calcNodes (placeOrder calcNodes peer) start done placing.members mem stream ∧
      Owned pool done (ringNodes placing.nodeMemRangeInPool) mem

theorem afterSend_length (visit : Visit Node) (members : Members Node) :
    (afterSend graph visit members).nodeEventMultiplexing.length =
      members.nodeEventMultiplexing.length + if visit.isLast then 1 else 0 := by
  unfold afterSend
  split
  · simp [sendToCalcNode]
  · rfl

variable (noChain : NoChain graph pool)
include noChain

variable (served : Served graph pool calcNodes peer)
include served

theorem tracked_afterSend (split : visits calcNodes peer = done ++ visit :: rest) {ring : List Node}
    (tracked : Tracked graph calcNodes (placeOrder calcNodes peer) start done members mem stream)
    (owned : Owned pool done ring mem) (few : (afterSend graph visit members).nodeEventMultiplexing.length ≤ twoPow32) :
    ∃ mem' stream', Tracked graph calcNodes (placeOrder calcNodes peer) start (done ++ [visit]) (afterSend graph visit members)
      mem' stream' ∧ Owned pool (done ++ [visit]) (ring ++ [visit.node]) mem' := by
  have turn := served.turn split
  have known : visit ∈ visits calcNodes peer := by simp [split]
  have own := noChain.reader served known
  -- the visited node itself is read by a node that was not complete before
  have fresh : ∀ other ∈ done, other.isLast = true → pool.bufferNodeToCalc visit.node ≠ some other.calcNode := by
    intro other inside isLast reads
    rw [own] at reads
    have before := turn.complete other inside isLast
    rw [Option.some.inj reads] at before
    exact before.ne served.nodup rfl
  have old : ∀ node ∈ ring ++ [visit.node], ∀ other ∈ done, other.isLast = true →
      pool.bufferNodeToCalc node = some other.calcNode → ∃ use ∈ mem, use.2.calcNode = other.calcNode := by
    intro node inside other isDone isLast reads
    rcases mem_append.mp inside with inside | inside
    · exact owned node inside other isDone isLast reads
    · rw [mem_singleton.mp inside] at reads
      exact absurd reads (fresh other isDone isLast)
  rw [afterSend_length] at few
  unfold afterSend
  cases last : visit.isLast with
  | false =>
    refine ⟨mem,stream,tracked.append visit,?_⟩
    intro node inside other isDone isLast reads
    rcases mem_append.mp isDone with isDone | isDone
    · exact old node inside other isDone isLast reads
    · rw [mem_singleton.mp isDone,last] at isLast
      cases isLast
  | true =>
    rw [last,if_pos rfl] at few
    obtain ⟨event,stream',sent⟩ := tracked.send turn last (by omega)
    refine ⟨_,stream',sent,?_⟩
    intro node inside other isDone isLast reads
    rcases mem_append.mp isDone with isDone | isDone
    · obtain ⟨use,isLive,isCalc⟩ := old node inside other isDone isLast reads
      exact ⟨use,mem_append_left _ isLive,isCalc⟩
    · rw [mem_singleton.mp isDone]
      exact ⟨(visit.node,.sendTo visit.calcNode event),by simp,rfl⟩

theorem tracked_afterWait (split : visits calcNodes peer = done ++ visit :: rest) {first reader : Node} {others : List Node}
    (tracked : Tracked graph calcNodes (placeOrder calcNodes peer) start (done ++ [visit]) members mem stream)
    (owned : Owned pool (done ++ [visit]) (first :: others ++ [visit.node]) mem)
    (ring : (first :: others).Sublist (done.map Visit.node)) (reads : pool.bufferNodeToCalc first = some reader)
    (notOwn : reader ≠ visit.calcNode) (few : members.nodeEventMultiplexing.length < twoPow32) :
    ∃ mem' stream', Tracked graph calcNodes (placeOrder calcNodes peer) start (done ++ [visit])
      (recvFromDependent graph reader visit.node members) mem' stream' ∧
      Owned pool (done ++ [visit]) (first :: others ++ [visit.node]) mem' := by
  have turn := served.turn split
  have known : visit ∈ visits calcNodes peer := by simp [split]
  have own := noChain.reader served known
  have sub : (done.map Visit.node ++ [visit.node]).Sublist (placeOrder calcNodes peer) := by
    rw [← visits_nodes,split]
    simp
  have order : ∀ {a b}, Precedes (first :: others ++ [visit.node]) a b → Precedes (placeOrder calcNodes peer) a b :=
    fun before => before.mono ((ring.append (List.Sublist.refl _)).trans sub)
  have earlier : Precedes calcNodes reader visit.calcNode := by
    rcases noChain.reader_order served (order (Precedes.across (.head _) (.head _))) reads own with same | before
    · exact absurd same notOwn
    · exact before
  have placed : first ∈ placeOrder calcNodes peer := (order (Precedes.across (.head _) (.head _))).left
  have has : ∃ use ∈ mem, use.2.calcNode = reader := by
    obtain ⟨-,inside⟩ := noChain.placed served placed reads
    obtain ⟨group,hasGroup,-⟩ := mem_flatten.mp inside
    have nodup := served.orderNodup
    rw [← visits_nodes] at nodup
    obtain ⟨last,isDone,rfl,isLast⟩ := visits_complete
      (fun calcNode group known => (served.isGroup calcNode group known).nonempty) split nodup.of_map
      (ne_nil_of_mem hasGroup) earlier
    exact owned first (by simp) last (mem_append_left _ isDone) isLast reads
  obtain ⟨event,mem',waited,left⟩ := tracked.wait turn earlier has few
  refine ⟨mem',_,waited,?_⟩
  intro node inside other isDone isLast otherReads
  obtain ⟨use,isLive,isOwner⟩ := owned node inside other isDone isLast otherReads
  rcases left use isLive with stays | before
  · exact ⟨use,stays,isOwner⟩
  · rw [isOwner] at before
    rcases mem_cons.mp inside with rfl | later
    · rw [reads] at otherReads
      rw [Option.some.inj otherReads] at before
      exact absurd rfl (before.ne served.nodup)
    · have after : Precedes (first :: others ++ [visit.node]) first node := precedes_cons.mpr (.inr ⟨rfl,later⟩)
      rcases noChain.reader_order served (order after) reads otherReads with same | listed
      · rw [same] at before
        exact absurd rfl (before.ne served.nodup)
      · exact absurd before (listed.asymm served.nodup)

theorem events_kept (start : Nat) : Kept graph pool (visits calcNodes peer) (EventsKept graph pool calcNodes peer start) := by
  intro done visit rest placing placing' groupTotal split kept _ ok
  obtain ⟨offset,dependent,queue,middle,edges,steps⟩ := allocateSpaceForBufferPoolNode_steps ok
  obtain ⟨ring,heads⟩ := getOffsetAndDependency_suffix steps.place
  have isVisit : visit ∈ visits calcNodes peer := by simp [split]
  obtain ⟨listed,inside⟩ := visits_placed isVisit
  have grows : (afterSend graph visit placing.members).nodeEventMultiplexing.length ≤ middle.nodeEventMultiplexing.length ∧
      ∀ edge ∈ placing.members.controlEdges, edge ∈ middle.controlEdges := by
    rcases steps.waits with ⟨-,same⟩ | ⟨-,reader,-,-,same⟩
    · rw [same,afterSend_edges]
      exact ⟨le_rfl,fun _ known => known⟩
    · rw [same]
      simp only [recvFromDependent,afterSend_edges,length_append]
      exact ⟨by omega,fun edge known => mem_append_left _ known⟩
  obtain ⟨longer,more⟩ := grows
  refine ⟨?_,?_,?_⟩
  · rw [steps.ringNodes,map_append]
    exact (ring.sublist.trans kept.ring).append (List.Sublist.refl _)
  · rw [Members.placed,steps.offsets,map_append,map_append,← kept.placed]
    rfl
  · rw [steps.ringNodes,steps.placed]
    intro noOwnWait few
    have fewMiddle : middle.nodeEventMultiplexing.length ≤ twoPow32 := few
    have fewSent := longer.trans fewMiddle
    have fewBefore : placing.members.nodeEventMultiplexing.length ≤ twoPow32 := by
      rw [afterSend_length] at fewSent
      omega
    have noOwn : NoOwnWait calcNodes peer middle := by
      intro calcNode known node placed own
      exact noOwnWait calcNode known node placed (mem_append_left _ own)
    obtain ⟨mem,stream,tracked,owned⟩ := kept.tracked
      (fun calcNode known node placed own => noOwn calcNode known node placed (more _ own)) fewBefore
    have ownedQueue : Owned pool done (ringNodes queue) mem := fun node inside => owned node (ring.subset inside)
    obtain ⟨mem,stream,tracked,owned⟩ := tracked_afterSend noChain served split tracked ownedQueue fewSent
    rcases steps.waits with ⟨-,same⟩ | ⟨isFirst,reader,isReader,-,same⟩
    · refine ⟨mem,stream,?_,owned⟩
      rw [same]
      exact { tracked with }
    · obtain ⟨first,others,isHead,reads⟩ := heads reader isReader
      rw [isHead] at owned ⊢
      have notOwn : reader ≠ visit.calcNode := by
        intro isOwn
        refine noOwn visit.calcNode listed visit.node inside ?_
        rw [same,isOwn]
        simp [recvFromDependent]
      rw [same] at fewMiddle ⊢
      have room : (afterSend graph visit placing.members).nodeEventMultiplexing.length < twoPow32 := by
        simp only [recvFromDependent,length_append,length_singleton] at fewMiddle
        omega
      obtain ⟨mem',stream',waited,owned⟩ := tracked_afterWait noChain served split tracked owned
        (isHead ▸ ring.sublist.trans kept.ring) reads notOwn room
      exact ⟨mem',stream',{ waited with },owned⟩

theorem allocateSpaceInBufferPool_tracked {logicEventNum : Nat} (range : logicEventNum < twoPow32)
    (ok : allocateSpaceInBufferPool graph pool peer calcNodes (.start logicEventNum) = .ok members)
    (noOwnWait : NoOwnWait calcNodes peer members) (few : members.nodeEventMultiplexing.length ≤ twoPow32) :
    members.placed = placeOrder calcNodes peer ∧ ∃ mem stream,
      Tracked graph calcNodes (placeOrder calcNodes peer) logicEventNum (visits calcNodes peer) members mem stream := by
  have start : EventsKept graph pool calcNodes peer logicEventNum [] (.start pool.poolSize (.start logicEventNum)) := by
    refine ⟨List.Sublist.refl _,rfl,fun _ _ => ?_⟩
    refine ⟨[],[],⟨Ledger.empty,rfl,rfl,List.Pairwise.nil,?_,?_,?_,0,le_rfl,(Nat.mod_eq_of_lt range).symm,?_⟩,?_⟩
    all_goals
      intro use known
      cases known
  obtain ⟨placing,rfl,kept⟩ := allocateSpaceInBufferPool_run (events_kept noChain served logicEventNum) start ok
  obtain ⟨mem,stream,tracked,-⟩ := kept.tracked noOwnWait few
  exact ⟨by rw [kept.placed,visits_nodes],mem,stream,tracked⟩

end Visiting

section Executions
variable [DecidableEq Node]

def nodeOps (marks : List (Node × EventMark Node)) (node : Node) : List (EventOp (Node × EventMark Node)) :=
  (marks.filter fun use => receiver use = node).map .wait ++ (marks.filter fun use => sender use = node).map .send

def prefetchStream (members : Members Node) : List (EventOp (Node × EventMark Node)) :=
  members.placed.flatMap (nodeOps members.nodeEventMultiplexing)

def calcStream (calcNodes : List Node) (members : Members Node) : List (EventOp (Node × EventMark Node)) :=
  calcNodes.flatMap (nodeOps members.nodeEventMultiplexing)

/-- In every execution, when an id is sent, all its earlier sends have been waited for; and no node sends an id that it
waits for. -/
structure Unambiguous (calcNodes : List Node) (members : Members Node) : Prop where
  passed : ∀ rest other log, EventRun (prefetchStream members) (calcStream calcNodes members) rest other log →
    ∀ next, rest.head? = some (.send next) ∨ other.head? = some (.send next) →
    ∀ use, .send use ∈ log → eventId use = eventId next → .wait use ∈ log
  apart : ∀ use ∈ members.nodeEventMultiplexing, ∀ other ∈ members.nodeEventMultiplexing,
    eventId use = eventId other → sender use ≠ receiver other

section Ops
variable {marks : List (Node × EventMark Node)} {use : Node × EventMark Node} {node : Node}

theorem mem_nodeOps_wait : .wait use ∈ nodeOps marks node ↔ use ∈ marks ∧ receiver use = node := by
  simp [nodeOps]

theorem mem_nodeOps_send : .send use ∈ nodeOps marks node ↔ use ∈ marks ∧ sender use = node := by
  simp [nodeOps]

def opNode : EventOp (Node × EventMark Node) → Node
  | .send use => sender use
  | .wait use => receiver use

theorem mem_nodeOps {op : EventOp (Node × EventMark Node)} (inside : op ∈ nodeOps marks node) : opNode op = node := by
  cases op with
  | send use => exact (mem_nodeOps_send.mp inside).2
  | wait use => exact (mem_nodeOps_wait.mp inside).2

theorem nodeOps_nodup (nodup : marks.Nodup) (node : Node) : (nodeOps marks node).Nodup := by
  refine nodup_append'.mpr ⟨?_,?_,?_⟩
  · exact (nodup.filter _).map fun _ _ same => EventOp.wait.inj same
  · exact (nodup.filter _).map fun _ _ same => EventOp.send.inj same
  · intro op left right
    obtain ⟨a,-,rfl⟩ := mem_map.mp left
    obtain ⟨b,-,same⟩ := mem_map.mp right
    cases same

theorem flatMap_nodeOps_nodup (nodup : marks.Nodup) {nodes : List Node} (nodesNodup : nodes.Nodup) :
    (nodes.flatMap (nodeOps marks)).Nodup := by
  refine nodup_flatMap.mpr ⟨fun node _ => nodeOps_nodup nodup node,nodesNodup.imp ?_⟩
  intro a b different op left right
  exact different ((mem_nodeOps left).symm.trans (mem_nodeOps right))

end Ops

section Chains
variable {calcNodes order : List Node} {marks : List (Node × EventMark Node)} {use other : Node × EventMark Node}

section
omit [DecidableEq Node]
variable (calcNodup : calcNodes.Nodup) (orderNodup : order.Nodup)
include calcNodup orderNodup

theorem later_of_chain {uses : List (Node × EventMark Node)} (chain : uses.IsChain (Handover calcNodes order)) :
    uses.Pairwise fun old new => Precedes order old.1 new.1 ∧ Precedes calcNodes old.2.calcNode new.2.calcNode := by
  have transitive : IsTrans (Node × EventMark Node)
      fun old new => Precedes order old.1 new.1 ∧ Precedes calcNodes old.2.calcNode new.2.calcNode :=
    ⟨fun _ _ _ first second => ⟨first.1.trans second.1 orderNodup,first.2.trans second.2 calcNodup⟩⟩
  exact isChain_iff_pairwise.mp (chain.imp fun _ _ handed => handed.2)

variable (chains : ∀ e, (marks.filter fun use => eventId use = e).IsChain (Handover calcNodes order))
include chains

theorem nodes_differ (known : use ∈ marks)
    (known' : other ∈ marks) (same : eventId use = eventId other) (different : use ≠ other) :
    use.1 ≠ other.1 ∧ use.2.calcNode ≠ other.2.calcNode := by
  have later := later_of_chain calcNodup orderNodup (chains (eventId other))
  have left : use ∈ marks.filter fun use => eventId use = eventId other := mem_filter.mpr ⟨known,by simpa using same⟩
  have right : other ∈ marks.filter fun use => eventId use = eventId other := mem_filter.mpr ⟨known',by simp⟩
  rcases Precedes.total left right with equal | before | after
  · exact absurd equal different
  · have pair := pairwise_pair.mp (later.sublist before)
    exact ⟨pair.1.ne orderNodup,pair.2.ne calcNodup⟩
  · have pair := pairwise_pair.mp (later.sublist after)
    exact ⟨(pair.1.ne orderNodup).symm,(pair.2.ne calcNodup).symm⟩

theorem marks_nodup : marks.Nodup := by
  rw [nodup_iff_sublist]
  intro use twice
  have inside : [use,use].Sublist (marks.filter fun other => eventId other = eventId use) := by
    have filtered := twice.filter fun other => eventId other = eventId use
    simpa using filtered
  have pair := pairwise_pair.mp ((later_of_chain calcNodup orderNodup (chains (eventId use))).sublist inside)
  exact pair.1.ne orderNodup rfl

end

theorem Handover.handsOver {members : Members Node} (placed : members.placed = order)
    (known : use ∈ members.nodeEventMultiplexing) (known' : other ∈ members.nodeEventMultiplexing)
    (handed : Handover calcNodes order use other) :
    HandsOver (prefetchStream members) (calcStream calcNodes members) use other := by
  obtain ⟨kinds,nodes,calcs⟩ := handed
  cases kind : use.2.isSend with
  | true =>
    have kind' : other.2.isSend = false := by
      rw [kind] at kinds
      simpa using kinds.symm
    right
    refine calcs.flatMap (mem_nodeOps_wait.mpr ⟨known,?_⟩) (mem_nodeOps_send.mpr ⟨known',?_⟩)
    · simp [receiver,kind]
    · simp [sender,kind']
  | false =>
    have kind' : other.2.isSend = true := by
      rw [kind] at kinds
      simpa using kinds.symm
    left
    rw [prefetchStream,placed]
    refine nodes.flatMap (mem_nodeOps_wait.mpr ⟨known,?_⟩) (mem_nodeOps_send.mpr ⟨known',?_⟩)
    · simp [receiver,kind]
    · simp [sender,kind']

end Chains

section Streams
variable {calcNodes : List Node} {members : Members Node}

theorem mem_streams (calcNodes : List Node) {use : Node × EventMark Node}
    (inside : .send use ∈ prefetchStream members ++ calcStream calcNodes members) : use ∈ members.nodeEventMultiplexing := by
  rcases mem_append.mp inside with inside | inside
  all_goals
    obtain ⟨node,-,inside⟩ := mem_flatMap.mp inside
    exact (mem_nodeOps_send.mp inside).1

theorem unambiguous_of_chains {order : List Node} (placed : members.placed = order) (nodup : (order ++ calcNodes).Nodup)
    (chains : ∀ e, (members.nodeEventMultiplexing.filter fun use => eventId use = e).IsChain (Handover calcNodes order))
    (ends : ∀ use ∈ members.nodeEventMultiplexing, use.1 ∈ order ∧ use.2.calcNode ∈ calcNodes) :
    Unambiguous calcNodes members := by
  obtain ⟨orderNodup,calcNodup,apart⟩ := nodup_append'.mp nodup
  have marksNodup := marks_nodup calcNodup orderNodup chains
  have opsNodup : (prefetchStream members ++ calcStream calcNodes members).Nodup := by
    rw [prefetchStream,calcStream,placed,← flatMap_append]
    exact flatMap_nodeOps_nodup marksNodup nodup
  refine ⟨?_,?_⟩
  · intro rest other log run next turn use sent same
    obtain ⟨⟨done,done',isFirst,isSecond,logged⟩,-⟩ := run.spec
    have known : use ∈ members.nodeEventMultiplexing := by
      refine mem_streams calcNodes ?_
      rw [isFirst,isSecond]
      rcases (logged _).mp sent with inside | inside
      · exact mem_append_left _ (mem_append_left _ inside)
      · exact mem_append_right _ (mem_append_left _ inside)
    have known' : next ∈ members.nodeEventMultiplexing := by
      refine mem_streams calcNodes ?_
      rw [isFirst,isSecond]
      rcases turn with turn | turn
      · exact mem_append_left _ (mem_append_right _ (mem_of_mem_head? turn))
      · exact mem_append_right _ (mem_append_right _ (mem_of_mem_head? turn))
    have chain : (members.nodeEventMultiplexing.filter fun use => eventId use = eventId next).IsChain
        (HandsOver (prefetchStream members) (calcStream calcNodes members)) := by
      refine (chains (eventId next)).imp_of_mem_imp ?_
      intro old new inside inside' handed
      exact handed.handsOver placed (mem_of_mem_filter inside) (mem_of_mem_filter inside')
    exact run.passed_before_send opsNodup chain (mem_filter.mpr ⟨known,by simpa using same⟩)
      (mem_filter.mpr ⟨known',by simp⟩) turn sent
  · intro use known other known' same equal
    obtain ⟨isPlaced,isListed⟩ := ends use known
    obtain ⟨isPlaced',isListed'⟩ := ends other known'
    have differ := nodes_differ calcNodup orderNodup chains known known' same
    unfold sender receiver at equal
    -- a prefetch node is no calculation node, and two uses of the id have no node in common
    by_cases whole : use = other
    · subst whole
      split at equal
      · exact apart isPlaced (equal ▸ isListed)
      · exact apart isPlaced (equal.symm ▸ isListed)
    · split at equal
      · split at equal
        · exact apart isPlaced (equal.symm ▸ isListed')
        · exact (differ whole).1 equal
      · split at equal
        · exact (differ whole).2 equal
        · exact apart isPlaced' (equal ▸ isListed)

end Streams
end Executions
end GraphEngine.Prefetch
