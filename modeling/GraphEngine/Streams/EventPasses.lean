import GraphEngine.Lib.KeepOne
import GraphEngine.Streams.EventInsertion

/-! What the passes over the event tables do: the conversion adds one event for each cross-stream edge, and each
removing pass keeps one event for each node and each list of nodes. -/

namespace GraphEngine.Streams
open Std Lib Function List
variable {Node : Type} {keys : NodeKeys Node} {before after : Events keys} {keep : Nat → Bool} {e e' : Nat} {u v : Node}

structure Paired (events : Events keys) : Prop where
  sendNodup : ∀ u, (events.sends u).Nodup
  receiveNodup : ∀ v, (events.receives v).Nodup
  oneSender : ∀ {e u u'}, e ∈ events.sends u → e ∈ events.sends u' → u = u'
  oneReceiver : ∀ {e v v'}, e ∈ events.receives v → e ∈ events.receives v' → v = v'
  received : ∀ {e u}, e ∈ events.sends u → ∃ v, e ∈ events.receives v
  sent : ∀ {e v}, e ∈ events.receives v → ∃ u, e ∈ events.sends u

namespace Paired

variable (paired : Paired after)
include paired

theorem sender (event : after.Event e u v) : getNodeFromSyncId e after.nodeToSendEvents = some u :=
  getNodeFromSyncId_eq event.1 fun _ other => paired.oneSender other event.1

theorem receiver (event : after.Event e u v) : getNodeFromSyncId e after.nodeToRecvEvents = some v :=
  getNodeFromSyncId_eq event.2 fun _ other => paired.oneReceiver other event.2

theorem ofReceived (received : e ∈ after.receives v) : ∃ u, after.Event e u v := by
  obtain ⟨u,sent⟩ := paired.sent received
  exact ⟨u,sent,received⟩

theorem ofSent (sent : e ∈ after.sends u) : ∃ v, after.Event e u v := by
  obtain ⟨v,received⟩ := paired.received sent
  exact ⟨v,sent,received⟩

end Paired

theorem flatMap_nodup {ids : Node → List Nat} {nodes : List Node} (each : ∀ node, (ids node).Nodup)
    (sole : ∀ {e v v'}, e ∈ ids v → e ∈ ids v' → v = v') (nodup : nodes.Nodup) : (nodes.flatMap ids).Nodup := by
  rw [nodup_flatMap]
  refine ⟨fun node _ => each node,?_⟩
  exact nodup.imp fun different e first second => different (sole first second)

def Restricts (before after : Events keys) (keep : Nat → Bool) : Prop :=
  ∀ node, after.sends node = (before.sends node).filter keep ∧ after.receives node = (before.receives node).filter keep

namespace Restricts

theorem refl (events : Events keys) : Restricts events events fun _ => true :=
  fun _ => ⟨(filter_eq_self.mpr fun _ _ => rfl).symm,(filter_eq_self.mpr fun _ _ => rfl).symm⟩

variable {keep' : Nat → Bool}

theorem congr (restricts : Restricts before after keep) (same : ∀ e, keep e = keep' e) :
    Restricts before after keep' := (funext same : keep = keep') ▸ restricts

theorem trans {middle : Events keys} (first : Restricts before middle keep)
    (second : Restricts middle after keep') : Restricts before after fun e => keep e && keep' e := by
  intro node
  rw [(second node).1,(second node).2,(first node).1,(first node).2,filter_filter,filter_filter]
  refine ⟨filter_congr fun e _ => ?_,filter_congr fun e _ => ?_⟩
  all_goals exact Bool.and_comm _ _

theorem event (restricts : Restricts before after keep) : after.Event e u v ↔ before.Event e u v ∧ keep e = true := by
  rw [Events.Event,(restricts u).1,(restricts v).2,mem_filter,mem_filter,Events.Event]
  tauto

theorem paired (restricts : Restricts before after keep) (paired : Paired before) : Paired after where
  sendNodup u := (restricts u).1 ▸ (paired.sendNodup u).filter _
  receiveNodup v := (restricts v).2 ▸ (paired.receiveNodup v).filter _
  oneSender {e u u'} left right := by
    rw [(restricts _).1,mem_filter] at left right
    exact paired.oneSender left.1 right.1
  oneReceiver {e v v'} left right := by
    rw [(restricts _).2,mem_filter] at left right
    exact paired.oneReceiver left.1 right.1
  received {e u} sent := by
    rw [(restricts u).1,mem_filter] at sent
    obtain ⟨v,received⟩ := paired.received sent.1
    exact ⟨v,by rw [(restricts v).2,mem_filter]; exact ⟨received,sent.2⟩⟩
  sent {e v} received := by
    rw [(restricts v).2,mem_filter] at received
    obtain ⟨u,sent⟩ := paired.sent received.1
    exact ⟨u,by rw [(restricts u).1,mem_filter]; exact ⟨sent,received.2⟩⟩

variable [DecidableEq Node]

theorem rmvEventId_filter {table left : SyncTable keys} (nodup : ∀ node, (getSyncIdList node table).Nodup)
    (filtered : ∀ node, getSyncIdList node left = (getSyncIdList node table).filter keep)
    (sole : ∀ node, e ∈ getSyncIdList node table → node = u) (node : Node) :
    getSyncIdList node (rmvEventId u e left) = (getSyncIdList node table).filter fun x => keep x && x != e := by
  rw [getSyncIdList_rmvEventId,filtered,filtered]
  by_cases same : node = u
  · rw [if_pos same,same,((nodup u).filter _).erase_eq_filter,filter_filter]
    exact filter_congr fun x _ => Bool.and_comm _ _
  · rw [if_neg same]
    refine filter_congr fun x inside => ?_
    have other : x ≠ e := fun isE => same (sole node (isE ▸ inside))
    simp [other]

theorem remove (restricts : Restricts before after keep) (paired : Paired before) (event : before.Event e u v) :
    Restricts before ((after.rmvSendEventId u e).rmvRecvEventId v e) fun x => keep x && x != e := by
  intro node
  refine ⟨?_,?_⟩
  · apply rmvEventId_filter paired.sendNodup (fun node => (restricts node).1)
    exact fun _ other => paired.oneSender other event.1
  · apply rmvEventId_filter paired.receiveNodup (fun node => (restricts node).2)
    exact fun _ other => paired.oneReceiver other event.2

end Restricts

section OneStream
variable [DecidableEq Node]

/-- The scan of a stream after the events that were visited: of them only some are kept, and the table holds the kept
event of each node. -/
structure Scanned (before : Events keys) (key : Nat → Option Node) (visited kept : List Nat) (scan : Scan keys) : Prop where
  restricts : Restricts before scan.events fun e => decide (e ∈ visited → e ∈ kept)
  recorded : ∀ node e, scan.nodeToEventId node = some e ↔ e ∈ kept ∧ key e = some node

omit [DecidableEq Node] in
theorem Scanned.init (key : Nat → Option Node) : Scanned before key [] [] ⟨before,fun _ => none⟩ where
  restricts := (Restricts.refl before).congr fun e => by simp
  recorded node e := by simp

variable {key : Nat → Option Node} {visited kept : List Nat} {scan : Scan keys}

theorem Scanned.recorded_update {now : List Nat} (scanned : Scanned before key visited kept scan) (isNode : key e = some u)
    (isNow : ∀ x, x ∈ now ↔ x ∈ kept ∧ key x ≠ key e ∨ x = e) (node : Node) (x : Nat) :
    update scan.nodeToEventId u (some e) node = some x ↔ x ∈ now ∧ key x = some node := by
  rw [isNow]
  by_cases same : node = u
  · rw [same,update_self,Option.some.injEq]
    constructor
    · intro isX
      exact ⟨.inr isX.symm,isX ▸ isNode⟩
    · rintro ⟨⟨_,other⟩ | new,found⟩
      · exact absurd (found.trans isNode.symm) other
      · exact new.symm
  · rw [update_of_ne same,scanned.recorded]
    constructor
    · rintro ⟨old,found⟩
      refine ⟨.inl ⟨old,?_⟩,found⟩
      rw [found,isNode]
      exact fun sameNode => same (Option.some.inj sameNode)
    · rintro ⟨⟨old,_⟩ | new,found⟩
      · exact ⟨old,found⟩
      · rw [new,isNode] at found
        exact absurd (Option.some.inj found).symm same

theorem Scanned.record (scanned : Scanned before key visited kept scan) (fresh : e ∉ visited) (isNode : key e = some u)
    (absent : scan.nodeToEventId u = none) : (∀ y ∈ kept, key y ≠ key e) ∧ Scanned before key (visited ++ [e]) (kept ++ [e])
      { scan with nodeToEventId := update scan.nodeToEventId u (some e) } := by
  have others : ∀ y ∈ kept, key y ≠ key e := by
    intro y inside same
    have recorded := (scanned.recorded u y).mpr ⟨inside,same.trans isNode⟩
    rw [absent] at recorded
    cases recorded
  refine ⟨others,?_,scanned.recorded_update isNode fun x => ?_⟩
  · refine scanned.restricts.congr fun x => ?_
    by_cases same : x = e
    · simp [same,fresh]
    · simp [same]
  · rw [mem_append,mem_singleton]
    exact or_congr_left ⟨fun old => ⟨old,others x old⟩,And.left⟩

theorem optimizeBySendEvent_step (paired : Paired before) (isKey : ∀ {e u v}, before.Event e u v → key e = some u)
    (scanned : Scanned before key visited (keepFirst key visited) scan) (received : e ∈ before.receives v)
    (fresh : e ∉ visited) : ∃ next, optimizeBySendEvent v scan e = .ok next ∧
      Scanned before key (visited ++ [e]) (keepFirst key (visited ++ [e])) next := by
  obtain ⟨u,event⟩ := paired.ofReceived received
  have here : scan.events.Event e u v := scanned.restricts.event.mpr ⟨event,by simp [fresh]⟩
  have found := (scanned.restricts.paired paired).sender here
  cases seen : scan.nodeToEventId u with
  | none =>
    obtain ⟨absent,next⟩ := scanned.record fresh (isKey event) seen
    have result : optimizeBySendEvent v scan e =
        .ok { scan with nodeToEventId := update scan.nodeToEventId u (some e) } := by
      simp only [optimizeBySendEvent,found,seen]
    refine ⟨_,result,?_⟩
    rw [keepFirst_concat,if_neg (not_exists.mpr fun y there => absent y there.1 there.2)]
    exact next
  | some first =>
    obtain ⟨kept,same⟩ := (scanned.recorded u first).mp seen
    have result : optimizeBySendEvent v scan e =
        .ok { scan with events := (scan.events.rmvSendEventId u e).rmvRecvEventId v e } := by
      simp only [optimizeBySendEvent,found,seen]
    refine ⟨_,result,?_⟩
    rw [keepFirst_concat,if_pos ⟨first,kept,same.trans (isKey event).symm⟩]
    refine ⟨(scanned.restricts.remove paired event).congr fun x => ?_,scanned.recorded⟩
    by_cases isE : x = e
    · have gone : e ∉ keepFirst key visited := fun kept => fresh (mem_of_mem_keepFirst kept)
      simp [isE,gone]
    · simp [isE]

theorem optimizeByRecvEvent_step (paired : Paired before)
    (isKey : ∀ {e u v}, before.Event e u v → key e = some v) (known : ∀ e ∈ visited, ∃ u, e ∈ before.sends u)
    (scanned : Scanned before key visited (keepLast key visited) scan) (sent : e ∈ before.sends u) (fresh : e ∉ visited) :
    ∃ next, optimizeByRecvEvent scan e = .ok next ∧
      Scanned before key (visited ++ [e]) (keepLast key (visited ++ [e])) next := by
  obtain ⟨v,event⟩ := paired.ofSent sent
  have stillPaired := scanned.restricts.paired paired
  have here : scan.events.Event e u v := scanned.restricts.event.mpr ⟨event,by simp [fresh]⟩
  have found := stillPaired.receiver here
  cases seen : scan.nodeToEventId v with
  | none =>
    obtain ⟨absent,next⟩ := scanned.record fresh (isKey event) seen
    have all : (keepLast key visited).filter (fun y => key y ≠ key e) = keepLast key visited :=
      filter_eq_self.mpr fun y kept => by simpa using absent y kept
    have result : optimizeByRecvEvent scan e =
        .ok { scan with nodeToEventId := update scan.nodeToEventId v (some e) } := by
      simp only [optimizeByRecvEvent,found,seen]
    refine ⟨_,result,?_⟩
    rw [keepLast_concat,all]
    exact next
  | some last =>
    obtain ⟨kept,same⟩ := (scanned.recorded v last).mp seen
    obtain ⟨w,sentLast⟩ := known last (mem_of_mem_keepLast kept)
    obtain ⟨v',eventLast⟩ := paired.ofSent sentLast
    obtain rfl : v' = v := Option.some.inj ((isKey eventLast).symm.trans same)
    have hereLast : scan.events.Event last w v' := scanned.restricts.event.mpr ⟨eventLast,by simp [kept]⟩
    have result : optimizeByRecvEvent scan e =
        .ok ⟨(scan.events.rmvSendEventId w last).rmvRecvEventId v' last,
          update scan.nodeToEventId v' (some e)⟩ := by
      simp only [optimizeByRecvEvent,found,seen,stillPaired.sender hereLast]
    refine ⟨_,result,?_⟩
    -- of the kept events only the last one of the same receiver goes
    have others : ∀ x ∈ keepLast key visited, key x ≠ key e ↔ x ≠ last := by
      intro x keptX
      rw [not_iff_not]
      refine ⟨fun sameX => keepLast_unique keptX kept (sameX.trans ((isKey event).trans same.symm)),?_⟩
      rintro rfl
      exact same.trans (isKey event).symm
    refine ⟨(scanned.restricts.remove paired eventLast).congr fun x => ?_,
      scanned.recorded_update (isKey event) fun x => mem_keepLast_concat⟩
    rw [Bool.eq_iff_iff,Bool.and_eq_true,bne_iff_ne,decide_eq_true_eq,decide_eq_true_eq,mem_keepLast_concat,
      mem_append,mem_singleton]
    by_cases isE : x = e
    · have different : e ≠ last := fun isLast => fresh (isLast ▸ mem_of_mem_keepLast kept)
      simp [isE,fresh,different]
    · by_cases keptX : x ∈ keepLast key visited
      · have visitedX := mem_of_mem_keepLast keptX
        simp [isE,keptX,visitedX,(others x keptX).symm]
      · have notLast : x ≠ last := fun isLast => keptX (isLast ▸ kept)
        simp [isE,keptX,notLast]

end OneStream

/-! The loop over the nodes of a stream visits all their events. -/
section Scanning
variable {ids : Events keys → Node → List Nat} {step : Node → Scan keys → Nat → Except Status (Scan keys)}
  {keepOne : List Nat → List Nat} {key : Nat → Option Node} {visited : List Nat} {scan : Scan keys}
  (restricted : ∀ {after keep}, Restricts before after keep → ∀ node, ids after node = (ids before node).filter keep)
  (stepOk : ∀ {visited scan node e}, (∀ x ∈ visited, ∃ other, x ∈ ids before other) → e ∈ ids before node → e ∉ visited →
    Scanned before key visited (keepOne visited) scan →
    ∃ next, step node scan e = .ok next ∧ Scanned before key (visited ++ [e]) (keepOne (visited ++ [e])) next)
include stepOk

theorem scan_ids {node : Node} {es : List Nat} (here : ∀ e ∈ es, e ∈ ids before node) (nodup : (visited ++ es).Nodup)
    (known : ∀ x ∈ visited, ∃ other, x ∈ ids before other) (scanned : Scanned before key visited (keepOne visited) scan) :
    ∃ next, es.foldlM (step node) scan = .ok next ∧ Scanned before key (visited ++ es) (keepOne (visited ++ es)) next := by
  induction es generalizing visited scan with
  | nil => exact ⟨scan,rfl,by simpa using scanned⟩
  | cons e es ih =>
    have fresh : e ∉ visited := fun old => disjoint_of_nodup_append nodup old mem_cons_self
    obtain ⟨middle,first,scannedMiddle⟩ := stepOk known (here e mem_cons_self) fresh scanned
    have knownMiddle : ∀ x ∈ visited ++ [e], ∃ other, x ∈ ids before other :=
      forall_mem_append.mpr ⟨known,fun x new => ⟨node,mem_singleton.mp new ▸ here e mem_cons_self⟩⟩
    obtain ⟨next,rest,scannedNext⟩ :=
      ih (fun x later => here x (.tail _ later)) (by simpa using nodup) knownMiddle scannedMiddle
    refine ⟨next,?_,by simpa using scannedNext⟩
    rw [foldlM_cons,first]
    exact rest

include restricted

variable {nodes : List Node}

theorem scan_nodes (nodup : (visited ++ nodes.flatMap (ids before)).Nodup)
    (known : ∀ x ∈ visited, ∃ other, x ∈ ids before other) (scanned : Scanned before key visited (keepOne visited) scan) :
    ∃ next, nodes.foldlM (fun scan node => (ids scan.events node).foldlM (step node) scan) scan = .ok next ∧
      Scanned before key (visited ++ nodes.flatMap (ids before)) (keepOne (visited ++ nodes.flatMap (ids before))) next := by
  induction nodes generalizing visited scan with
  | nil => exact ⟨scan,rfl,by simpa using scanned⟩
  | cons node nodes ih =>
    rw [flatMap_cons,← append_assoc] at nodup
    -- no event of this node was visited, so all of them are still there
    have all : ids scan.events node = ids before node := by
      rw [restricted scanned.restricts node]
      refine filter_eq_self.mpr fun e inside => ?_
      have fresh : e ∉ visited := fun old => disjoint_of_nodup_append nodup.of_append_left old inside
      simp [fresh]
    obtain ⟨middle,first,scannedMiddle⟩ :=
      scan_ids stepOk (fun _ inside => inside) nodup.of_append_left known scanned
    have knownMiddle : ∀ x ∈ visited ++ ids before node, ∃ other, x ∈ ids before other :=
      forall_mem_append.mpr ⟨known,fun x new => ⟨node,new⟩⟩
    obtain ⟨next,rest,scannedNext⟩ := ih nodup knownMiddle scannedMiddle
    refine ⟨next,?_,by simpa using scannedNext⟩
    rw [foldlM_cons,all,first]
    exact rest

theorem scanStream_run (nil : keepOne [] = []) (nodup : (nodes.flatMap (ids before)).Nodup) :
    ∃ next, scanStream ids step before nodes = .ok next ∧ Restricts before next fun e =>
      decide (e ∈ nodes.flatMap (ids before) → e ∈ keepOne (nodes.flatMap (ids before))) := by
  have start : Scanned before key [] (keepOne []) ⟨before,fun _ => none⟩ := by
    rw [nil]
    exact Scanned.init key
  obtain ⟨next,run,scanned⟩ := scan_nodes restricted stepOk (by simpa using nodup) (by simp) start
  refine ⟨next.events,?_,by simpa using scanned.restricts⟩
  rw [scanStream,run]
  rfl

end Scanning

/-! A pass over all streams. -/

structure Thinned (implied : Node × Node → Node × Node → Prop) (before after : Events keys) : Prop where
  restricts : ∃ keep, Restricts before after keep
  covered : ∀ {e u v}, before.Event e u v → ∃ e' link, after.Event e' link.1 link.2 ∧ implied link (u,v)

variable {implied : Node × Node → Node × Node → Prop}

theorem Thinned.refl (reflexive : ∀ link, implied link link) (events : Events keys) : Thinned implied events events :=
  ⟨⟨_,Restricts.refl events⟩,fun {e u v} event => ⟨e,(u,v),event,reflexive _⟩⟩

theorem Thinned.trans {middle : Events keys}
    (transitive : ∀ {a b c}, implied a b → implied b c → implied a c) (first : Thinned implied before middle)
    (second : Thinned implied middle after) : Thinned implied before after where
  restricts := by
    obtain ⟨keep,restrictsFirst⟩ := first.restricts
    obtain ⟨keep',restrictsSecond⟩ := second.restricts
    exact ⟨_,restrictsFirst.trans restrictsSecond⟩
  covered event := by
    obtain ⟨e,link,present,impliedFirst⟩ := first.covered event
    obtain ⟨e',link',present',impliedSecond⟩ := second.covered present
    exact ⟨e',link',present',transitive impliedSecond impliedFirst⟩

theorem streams_run (implied : Node × Node → Node × Node → Prop) (once : Events keys → List Node → Prop)
    {pass : Events keys → List Node → Except Status (Events keys)} {lists : List (List Node)}
    (reflexive : ∀ link, implied link link) (transitive : ∀ {a b c}, implied a b → implied b c → implied a c)
    (mono : ∀ {before after : Events keys} {keep nodes}, Restricts before after keep → once before nodes → once after nodes)
    (passOk : ∀ {before nodes}, nodes ∈ lists → Paired before →
      ∃ after, pass before nodes = .ok after ∧ Thinned implied before after ∧ once after nodes) (paired : Paired before) :
    ∃ after, lists.foldlM pass before = .ok after ∧ Thinned implied before after ∧ ∀ nodes ∈ lists, once after nodes := by
  induction lists generalizing before with
  | nil => exact ⟨before,rfl,Thinned.refl reflexive before,fun _ impossible => nomatch impossible⟩
  | cons nodes lists ih =>
    obtain ⟨middle,first,thinnedFirst,onceFirst⟩ := passOk mem_cons_self paired
    obtain ⟨_,restricts⟩ := thinnedFirst.restricts
    obtain ⟨after,rest,thinnedRest,onceRest⟩ :=
      ih (fun inside => passOk (.tail _ inside)) (restricts.paired paired)
    obtain ⟨_,restrictsRest⟩ := thinnedRest.restricts
    refine ⟨after,?_,thinnedFirst.trans transitive thinnedRest,?_⟩
    · rw [foldlM_cons,first]
      exact rest
    · exact forall_mem_cons.mpr ⟨mono restrictsRest onceFirst,onceRest⟩

section Passes
variable [DecidableEq Node] {id listed : Node → Int} {nodes : List Node}

def SentOnce (events : Events keys) (nodes : List Node) : Prop :=
  ∀ {e e' u v v'}, events.Event e u v → events.Event e' u v' → v ∈ nodes → v' ∈ nodes → e = e'

def ReceivedOnce (events : Events keys) (nodes : List Node) : Prop :=
  ∀ {e e' u u' v}, events.Event e u v → events.Event e' u' v → u ∈ nodes → u' ∈ nodes → e = e'

def ReceivedEarlier (id listed : Node → Int) (kept gone : Node × Node) : Prop :=
  kept.1 = gone.1 ∧ listed kept.2 = listed gone.2 ∧ id kept.2 ≤ id gone.2

def SentLater (id listed : Node → Int) (kept gone : Node × Node) : Prop :=
  kept.2 = gone.2 ∧ listed kept.1 = listed gone.1 ∧ id gone.1 ≤ id kept.1

omit [DecidableEq Node] in
theorem scan_order {ids : Node → List Nat} (sole : ∀ {e v v'}, e ∈ ids v → e ∈ ids v' → v = v')
    (sorted : nodes.Pairwise fun u v => id u < id v) (before : Precedes (nodes.flatMap ids) e e') (left : e ∈ ids u)
    (right : e' ∈ ids v) : id u ≤ id v := by
  rcases before.of_flatMap with ⟨node,_,inNode⟩ | ⟨p,q,ordered,inP,inQ⟩
  · rw [sole left inNode.left,sole right inNode.right]
  · rw [sole left inP,sole right inQ]
    have pair := sorted.sublist ordered
    exact Int.le_of_lt (by simpa using pair)

variable (paired : Paired before) (sorted : nodes.Pairwise fun u v => id u < id v)
  (same : ∀ u ∈ nodes, ∀ v ∈ nodes, listed u = listed v)
include paired sorted same

theorem optimizeBySendEvents_stream : ∃ after, scanStream Events.receives optimizeBySendEvent before nodes = .ok after ∧
      Thinned (ReceivedEarlier id listed) before after ∧ SentOnce after nodes := by
  let key : Nat → Option Node := fun e => getNodeFromSyncId e before.nodeToSendEvents
  have isKey : ∀ {e u v}, before.Event e u v → key e = some u := paired.sender
  have nodup : nodes.Nodup := sorted.imp fun less isSame => less.ne (congrArg id isSame)
  obtain ⟨after,run,restricts⟩ := scanStream_run (fun restricts node => (restricts node).2)
    (fun _ received fresh scanned => optimizeBySendEvent_step paired isKey scanned received fresh) rfl
    (flatMap_nodup paired.receiveNodup paired.oneReceiver nodup)
  refine ⟨after,run,⟨⟨_,restricts⟩,?_⟩,?_⟩
  · intro e u v event
    by_cases scanned : e ∈ nodes.flatMap before.receives
    · obtain ⟨first,kept,sameKey,order⟩ := keepFirst_covers key scanned
      obtain ⟨w,insideW,receivedW⟩ := mem_flatMap.mp (mem_of_mem_keepFirst kept)
      obtain ⟨v',insideV,receivedV⟩ := mem_flatMap.mp scanned
      obtain rfl := paired.oneReceiver event.2 receivedV
      obtain ⟨u',eventFirst⟩ := paired.ofReceived receivedW
      have sameSender : u' = u := Option.some.inj ((isKey eventFirst).symm.trans (sameKey.trans (isKey event)))
      refine ⟨first,(u',w),restricts.event.mpr ⟨eventFirst,by simp [kept]⟩,sameSender,same w insideW v insideV,?_⟩
      rcases order with isE | before
      · exact (congrArg id (paired.oneReceiver receivedW (isE ▸ receivedV))).le
      · exact scan_order paired.oneReceiver sorted before receivedW receivedV
    · exact ⟨e,(u,v),restricts.event.mpr ⟨event,by simp [scanned]⟩,rfl,rfl,le_rfl⟩
  · intro e e' u v v' left right insideV insideV'
    obtain ⟨eventLeft,keptLeft⟩ := restricts.event.mp left
    obtain ⟨eventRight,keptRight⟩ := restricts.event.mp right
    refine keepFirst_unique (of_decide_eq_true keptLeft ?_) (of_decide_eq_true keptRight ?_)
      ((isKey eventLeft).trans (isKey eventRight).symm)
    · exact mem_flatMap.mpr ⟨v,insideV,eventLeft.2⟩
    · exact mem_flatMap.mpr ⟨v',insideV',eventRight.2⟩

theorem optimizeByRecvEvents_stream : ∃ after, scanStream Events.sends (fun _ => optimizeByRecvEvent) before nodes = .ok after ∧
      Thinned (SentLater id listed) before after ∧ ReceivedOnce after nodes := by
  let key : Nat → Option Node := fun e => getNodeFromSyncId e before.nodeToRecvEvents
  have isKey : ∀ {e u v}, before.Event e u v → key e = some v := paired.receiver
  have nodup : nodes.Nodup := sorted.imp fun less isSame => less.ne (congrArg id isSame)
  obtain ⟨after,run,restricts⟩ := scanStream_run (fun restricts node => (restricts node).1)
    (fun known sent fresh scanned => optimizeByRecvEvent_step paired isKey known scanned sent fresh) rfl
    (flatMap_nodup paired.sendNodup paired.oneSender nodup)
  refine ⟨after,run,⟨⟨_,restricts⟩,?_⟩,?_⟩
  · intro e u v event
    by_cases scanned : e ∈ nodes.flatMap before.sends
    · obtain ⟨last,kept,sameKey,order⟩ := keepLast_covers key scanned
      obtain ⟨w,insideW,sentW⟩ := mem_flatMap.mp (mem_of_mem_keepLast kept)
      obtain ⟨u',insideU,sentU⟩ := mem_flatMap.mp scanned
      obtain rfl := paired.oneSender event.1 sentU
      obtain ⟨v',eventLast⟩ := paired.ofSent sentW
      have sameReceiver : v' = v := Option.some.inj ((isKey eventLast).symm.trans (sameKey.trans (isKey event)))
      refine ⟨last,(w,v'),restricts.event.mpr ⟨eventLast,by simp [kept]⟩,sameReceiver,same w insideW u insideU,?_⟩
      rcases order with isE | before
      · exact (congrArg id (paired.oneSender sentU (isE ▸ sentW))).le
      · exact scan_order paired.oneSender sorted before sentU sentW
    · exact ⟨e,(u,v),restricts.event.mpr ⟨event,by simp [scanned]⟩,rfl,rfl,le_rfl⟩
  · intro e e' u u' v left right insideU insideU'
    obtain ⟨eventLeft,keptLeft⟩ := restricts.event.mp left
    obtain ⟨eventRight,keptRight⟩ := restricts.event.mp right
    refine keepLast_unique (of_decide_eq_true keptLeft ?_) (of_decide_eq_true keptRight ?_)
      ((isKey eventLeft).trans (isKey eventRight).symm)
    · exact mem_flatMap.mpr ⟨u,insideU,eventLeft.1⟩
    · exact mem_flatMap.mpr ⟨u',insideU',eventRight.1⟩

end Passes
end GraphEngine.Streams
