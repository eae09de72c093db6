import Mathlib.Data.List.Sort
import GraphEngine.Streams.EventTables

/-! The dynamic stream allocator: the streams are refreshed and the nodes of each stream listed, a custom pass may
change streams, cross-stream edges are converted to events, and events that others imply are removed. -/

namespace GraphEngine.Streams
open Std

structure StreamNodes (Node : Type) extends NodeKeys Node where
  /-- The direct nodes of each graph. -/
  graphs : List (List Node)
  id : Node → Int
  hasSubgraphs : Node → Bool
  isForcedAssignMainStream : Node → Bool
  nodup : graphs.flatten.Nodup
  all : ∀ node, node ∈ graphs.flatten
  distinctIds : ∀ u v, id u = id v → u = v

structure Links (Node : Type) where
  /-- The data inputs behind each data output. -/
  outDataAnchors : Node → List (List Node)
  /-- The control inputs behind the control output. -/
  outControl : Node → List Node
  /-- The control inputs behind data outputs. -/
  outDataToControl : Node → List Node

def Links.Edge {Node : Type} (links : Links Node) (u v : Node) : Prop :=
  v ∈ (links.outDataAnchors u).flatten ∨ v ∈ links.outControl u ∨ v ∈ links.outDataToControl u

variable {Node : Type} [DecidableEq Node] {keys : NodeKeys Node}

/-! Streams. -/

abbrev StreamToNodes (Node : Type) := TreeMap Int (List Node)

def listNode (streams : Node → Int) (streamNodes : StreamToNodes Node) (node : Node) : StreamToNodes Node :=
  streamNodes.alter (streams node) fun nodes => some (nodes.getD [] ++ [node])

section Refresh
variable (nodes : StreamNodes Node) (oldToNewStreams : TreeMap Int Int)

def listStreamNodes (streams : Node → Int) : StreamToNodes Node :=
  nodes.graphs.flatten.foldl (listNode streams) ∅

def refreshStream (node : Node) (stream : Int) : Except Status Int :=
  if stream = kInvalidStream ∨ nodes.hasSubgraphs node ∨ oldToNewStreams.isEmpty ∨ nodes.isForcedAssignMainStream node then
    .ok kMainStream
  else
    match oldToNewStreams[stream]? with
    | none => .error .failed
    | some newStream => .ok newStream

def refreshNode (state : (Node → Int) × StreamToNodes Node) (node : Node) :
    Except Status ((Node → Int) × StreamToNodes Node) := do
  let stream ← refreshStream nodes oldToNewStreams node (state.1 node)
  let streams := Function.update state.1 node stream
  pure (streams,listNode streams state.2 node)

def refreshStreamsForGraph (state : (Node → Int) × StreamToNodes Node) (graph : List Node) :
    Except Status ((Node → Int) × StreamToNodes Node) :=
  graph.foldlM (refreshNode nodes oldToNewStreams) state

def refreshStreams (streams : Node → Int) : Except Status ((Node → Int) × StreamToNodes Node) :=
  nodes.graphs.foldlM (refreshStreamsForGraph nodes oldToNewStreams) (streams,∅)

end Refresh

inductive PassCall (Node : Type) where
  | allocateNextStreamId
  | setStreamId (node : Node) (stream : Int)

def runPassCall (state : (Node → Int) × Int) : PassCall Node → (Node → Int) × Int
  | .allocateNextStreamId => (state.1,state.2 + 1)
  | .setStreamId node stream =>
    if stream < 0 then state else if state.2 < stream then state else (Function.update state.1 node stream,state.2)

def runCustomStreamPass (calls : List (PassCall Node)) (streamNum : Int) (streams : Node → Int) : Node → Int :=
  (calls.foldl runPassCall (streams,streamNum - 1)).1

/-! Cross-stream edges. -/

def insertEventBetweenTwoNodes (streams : Node → Int) (curNode : Node) (events : Events keys) (nextNode : Node) :
    Except Status (Events keys) :=
  if streams curNode = kInvalidStream then .error .failed
  else if streams nextNode = kInvalidStream then .error .failed
  else if streams curNode = streams nextNode then .ok events
  else
    let eventId := uint32 events.eventNum
    .ok { (events.addSendEventId curNode eventId).addRecvEventId nextNode eventId with eventNum := events.eventNum + 1 }

def Links.converted (links : Links Node) (node : Node) : List Node :=
  (links.outDataAnchors node).flatten ++ links.outControl node

def convertEdgesToEvents (links : Links Node) (streams : Node → Int) (events : Events keys) (graph : List Node) :
    Except Status (Events keys) :=
  graph.foldlM (fun events curNode => (links.converted curNode).foldlM (insertEventBetweenTwoNodes streams curNode) events)
    events

/-! Removing events. -/

structure Scan (keys : NodeKeys Node) where
  events : Events keys
  nodeToEventId : Node → Option Nat

def optimizeBySendEvent (recvNode : Node) (scan : Scan keys) (eventId : Nat) : Except Status (Scan keys) :=
  match getNodeFromSyncId eventId scan.events.nodeToSendEvents with
  | none => .error .paramInvalid
  | some sendNode =>
    match scan.nodeToEventId sendNode with
    | none => .ok { scan with nodeToEventId := Function.update scan.nodeToEventId sendNode (some eventId) }
    | some _ => .ok { scan with events := (scan.events.rmvSendEventId sendNode eventId).rmvRecvEventId recvNode eventId }

def optimizeByRecvEvent (scan : Scan keys) (eventId : Nat) : Except Status (Scan keys) :=
  match getNodeFromSyncId eventId scan.events.nodeToRecvEvents with
  | none => .error .paramInvalid
  | some recvNode =>
    match scan.nodeToEventId recvNode with
    | none => .ok { scan with nodeToEventId := Function.update scan.nodeToEventId recvNode (some eventId) }
    | some preEventId =>
      match getNodeFromSyncId preEventId scan.events.nodeToSendEvents with
      | none => .error .paramInvalid
      | some preSendNode =>
        .ok ⟨(scan.events.rmvSendEventId preSendNode preEventId).rmvRecvEventId recvNode preEventId,
          Function.update scan.nodeToEventId recvNode (some eventId)⟩

/-- The loop over the nodes of one stream. The ids of a node are copied before they are looked at. -/
def scanStream (ids : Events keys → Node → List Nat) (step : Node → Scan keys → Nat → Except Status (Scan keys))
    (events : Events keys) (nodes : List Node) : Except Status (Events keys) := do
  let scan ← nodes.foldlM (fun scan node => (ids scan.events node).foldlM (step node) scan) ⟨events,fun _ => none⟩
  pure scan.events

def optimizeBySendEvents (streamNodes : StreamToNodes Node) (events : Events keys) : Except Status (Events keys) :=
  (streamNodes.toList.map Prod.snd).foldlM (scanStream Events.receives optimizeBySendEvent) events

def optimizeByRecvEvents (streamNodes : StreamToNodes Node) (events : Events keys) : Except Status (Events keys) :=
  (streamNodes.toList.map Prod.snd).foldlM (scanStream Events.sends fun _ => optimizeByRecvEvent) events

def sortStreamNodes (nodes : StreamNodes Node) (streamNodes : StreamToNodes Node) : StreamToNodes Node :=
  streamNodes.map fun _ list => list.insertionSort fun u v => nodes.id u ≤ nodes.id v

def optimizeEvents (nodes : StreamNodes Node) (streamNodes : StreamToNodes Node) (events : Events nodes.toNodeKeys) :
    Except Status (Events nodes.toNodeKeys) := do
  let sorted := sortStreamNodes nodes streamNodes
  let events ← optimizeBySendEvents sorted events
  optimizeByRecvEvents sorted events

/-! New ids. -/

def renumberEvent (state : TreeMap Nat Nat × Nat) (eventId : Nat) : TreeMap Nat Nat × Nat :=
  if state.1.contains eventId then state else (state.1.insert eventId state.2,uint32 (state.2 + 1))

def refreshSyncIds (oldToNewEvents : TreeMap Nat Nat) (table : SyncTable keys) : Except Status (SyncTable keys) :=
  if table.toList.all fun entry => entry.2.all oldToNewEvents.contains then
    .ok (table.map fun _ eventIds => eventIds.map fun eventId => oldToNewEvents.getD eventId 0)
  else .error .failed

def refreshEventByReuseMap (oldToNewEvents : TreeMap Nat Nat) (events : Events keys) : Except Status (Events keys) :=
  if oldToNewEvents.isEmpty then .ok events
  else do
    let nodeToSendEvents ← refreshSyncIds oldToNewEvents events.nodeToSendEvents
    let nodeToRecvEvents ← refreshSyncIds oldToNewEvents events.nodeToRecvEvents
    pure ⟨events.eventNum,nodeToSendEvents,nodeToRecvEvents⟩

def refreshContinuousEvents (eventNum : Nat) (events : Events keys) : Except Status (Events keys) := do
  let renumbered := (events.nodeToSendEvents.toList.flatMap Prod.snd).foldl renumberEvent (∅,eventNum)
  let events ← refreshEventByReuseMap renumbered.1 events
  pure { events with eventNum := renumbered.2 }

def insertEvents (nodes : StreamNodes Node) (links : Links Node) (streamNodes : StreamToNodes Node) (streams : Node → Int) :
    Except Status (Events nodes.toNodeKeys) := do
  let events ← nodes.graphs.foldlM (convertEdgesToEvents links streams) Events.empty
  let events ← optimizeEvents nodes streamNodes events
  refreshContinuousEvents 0 events

end GraphEngine.Streams
