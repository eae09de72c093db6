import Mathlib.Data.Finset.Insert
import Mathlib.Data.Fintype.Defs
import GraphEngine.Lib.Outcome
import GraphEngine.Streams.EventOrder

/-! Event insertion and the order of the graph. The nodes of each stream are listed before a custom pass may change streams, so
an event can be removed for the sake of a node that is on another stream by now. -/

namespace GraphEngine.Streams
open Std Lib Relation List
variable {Node : Type} {nodes : StreamNodes Node} {links : Links Node} {listed streams : Node → Int} {u v : Node}
  {events : Events nodes.toNodeKeys}

section Orders
variable (nodes links listed streams events)

def StreamOrder (u v : Node) : Prop := streams u = streams v ∧ nodes.id u < nodes.id v

def GraphOrder : Node → Node → Prop :=
  TransGen fun u v => StreamOrder nodes streams u v ∨ links.Edge u v

def EventOrder : Node → Node → Prop :=
  TransGen fun u v => StreamOrder nodes streams u v ∨ ∃ e, events.Event e u v

structure KeepsOrder : Prop where
  order : ∀ u v, EventOrder nodes streams events u v ↔ GraphOrder nodes links streams u v
  sent : ∀ e, e < events.eventNum ↔ ∃ u, e ∈ events.sends u
  received : ∀ e, e < events.eventNum ↔ ∃ v, e ∈ events.receives v
  sendNodup : ∀ u, (events.sends u).Nodup
  receiveNodup : ∀ v, (events.receives v).Nodup
  oneSender : ∀ {e u u'}, e ∈ events.sends u → e ∈ events.sends u' → u = u'
  oneReceiver : ∀ {e v v'}, e ∈ events.receives v → e ∈ events.receives v' → v = v'
  cross : ∀ {e u v}, events.Event e u v → streams u ≠ streams v
  sentOnce : ∀ {e e' u v v'}, events.Event e u v → events.Event e' u v' → streams v = streams v' → e = e'
  receivedOnce : ∀ {e e' u u' v}, events.Event e u v → events.Event e' u' v → streams u = streams u' → e = e'

/-- Ids are topological. -/
def Topological : Prop := ∀ u v, links.Edge u v → nodes.id u < nodes.id v

/-- `v` comes after `u` also without the edge between them. -/
def Implied (u v : Node) : Prop := ∃ w, GraphOrder nodes links streams u w ∧ GraphOrder nodes links streams w v

/-- What the lists must meet for one graph. A later reader of a node that was listed with an earlier one comes after the node in
another way too; an earlier sender that was listed with a later one comes before their reader in another way too; so do the ends
of a link from a data output to a control input, which gets no event. Of the events that are left no two join a node with one
stream. -/
structure ListsSafe : Prop where
  readers : ∀ u v v', CrossLink links streams u v → CrossLink links streams u v' → listed v = listed v' →
    nodes.id v < nodes.id v' → Implied nodes links streams u v'
  senders : ∀ u u' v, FirstReader nodes links listed streams u v → FirstReader nodes links listed streams u' v →
    listed u = listed u' → nodes.id u < nodes.id u' → Implied nodes links streams u v
  controls : ∀ u v, v ∈ links.outDataToControl u → v ∉ links.converted u → streams u ≠ streams v →
    Implied nodes links streams u v
  sentOnce : ∀ u v v', Kept nodes links listed streams u v → Kept nodes links listed streams u v' →
    streams v = streams v' → v = v'
  receivedOnce : ∀ u u' v, Kept nodes links listed streams u v → Kept nodes links listed streams u' v →
    streams u = streams u' → u = u'

end Orders

theorem CrossLink.edge (link : CrossLink links streams u v) : links.Edge u v :=
  (mem_append.mp link.1).imp_right .inl

theorem ListsSafe.implied (safe : ListsSafe nodes links listed streams) (edge : links.Edge u v) (cross : streams u ≠ streams v)
    (gone : ¬Kept nodes links listed streams u v) : Implied nodes links streams u v := by
  by_cases converted : v ∈ links.converted u
  · have link : CrossLink links streams u v := ⟨converted,cross⟩
    by_cases first : FirstReader nodes links listed streams u v
    · obtain ⟨u',reader,list,later⟩ : ∃ u', FirstReader nodes links listed streams u' v ∧ listed u' = listed u ∧
          nodes.id u < nodes.id u' := by simpa [Kept,first] using gone
      exact safe.senders u u' v first reader list.symm later
    · obtain ⟨v',link',list,earlier⟩ : ∃ v', CrossLink links streams u v' ∧ listed v' = listed v ∧
          nodes.id v' < nodes.id v := by simpa [FirstReader,link] using first
      exact safe.readers u v' v link' link list earlier
  · have control : v ∈ links.outDataToControl u := by
      rw [Links.converted,mem_append,not_or] at converted
      exact (edge.resolve_left converted.1).resolve_left converted.2
    exact safe.controls u v control converted cross

/-- What is not joined by an event or along a stream is ordered by way of a third node. -/
theorem KeepsOrder.implied (keeps : KeepsOrder nodes links streams events) (settled : Settled nodes links listed streams events)
    (edge : links.Edge u v) (cross : streams u ≠ streams v) (gone : ¬Kept nodes links listed streams u v) :
      Implied nodes links streams u v := by
  cases (keeps.order u v).mpr (.single (.inr edge)) with
  | single step =>
    rcases step with inStream | event
    · exact absurd inStream.1 cross
    · exact absurd ((settled.kept u v).mp event) gone
  | @tail w _ path step => exact ⟨w,(keeps.order u w).mp path,(keeps.order w v).mp (.single step)⟩

section Topological
variable (topological : Topological nodes links)
include topological

theorem GraphOrder.lt (path : GraphOrder nodes links streams u v) : nodes.id u < nodes.id v := by
  have up : ∀ {a b}, StreamOrder nodes streams a b ∨ links.Edge a b → nodes.id a < nodes.id b := by
    rintro a b (inStream | edge)
    · exact inStream.2
    · exact topological a b edge
  induction path with
  | single step => exact up step
  | tail _ step ih => exact ih.trans (up step)

/-- A path is ordered by events if all edges between its ends are. -/
theorem GraphOrder.eventOrder (path : GraphOrder nodes links streams u v) (edges : ∀ {a b}, nodes.id u ≤ nodes.id a →
    nodes.id b ≤ nodes.id v → links.Edge a b → EventOrder nodes streams events a b) : EventOrder nodes streams events u v := by
  have one : ∀ {a b}, nodes.id u ≤ nodes.id a → nodes.id b ≤ nodes.id v → StreamOrder nodes streams a b ∨ links.Edge a b →
      EventOrder nodes streams events a b := by
    rintro a b low high (inStream | edge)
    · exact .single (.inl inStream)
    · exact edges low high edge
  clear edges
  induction path with
  | single step => exact one le_rfl le_rfl step
  | @tail w v path step ih =>
    have before := GraphOrder.lt topological path
    have last : nodes.id w < nodes.id v := GraphOrder.lt topological (.single step)
    exact (ih fun low high => one low (high.trans last.le)).trans (one before.le le_rfl step)

variable (settled : Settled nodes links listed streams events)
include settled

/-- An edge is ordered by the events that are left; the induction is on the distance of the ids of its ends. -/
theorem Settled.edge_ordered (safe : ListsSafe nodes links listed streams) (distance : Nat) (edge : links.Edge u v)
    (near : nodes.id v ≤ nodes.id u + distance) : EventOrder nodes streams events u v := by
  induction distance generalizing u v with
  | zero =>
    have up := topological u v edge
    omega
  | succ distance ih =>
    by_cases same : streams u = streams v
    · exact .single (.inl ⟨same,topological u v edge⟩)
    by_cases left : Kept nodes links listed streams u v
    · exact .single (.inr ((settled.kept u v).mpr left))
    obtain ⟨w,before,behind⟩ := safe.implied edge same left
    have first := GraphOrder.lt topological before
    have second := GraphOrder.lt topological behind
    refine (GraphOrder.eventOrder topological before fun low high edge => ih edge ?_).trans
      (GraphOrder.eventOrder topological behind fun low high edge => ih edge ?_)
    all_goals
      push_cast at near
      omega

theorem Settled.keepsOrder_iff : KeepsOrder nodes links streams events ↔ ListsSafe nodes links listed streams := by
  constructor
  · intro keeps
    refine ⟨?_,?_,?_,?_,?_⟩
    · intro u v v' link link' list earlier
      refine keeps.implied settled link'.edge link'.2 fun left => ?_
      exact absurd (left.1.2 v link list) earlier.not_ge
    · intro u u' v reader reader' list earlier
      refine keeps.implied settled reader.1.edge reader.1.2 fun left => ?_
      exact absurd (left.2 u' reader' list.symm) earlier.not_ge
    · intro u v control converted cross
      exact keeps.implied settled (.inr (.inr control)) cross fun left => converted left.1.1.1
    · intro u v v' left left' same
      obtain ⟨e,event⟩ := (settled.kept u v).mpr left
      obtain ⟨e',event'⟩ := (settled.kept u v').mpr left'
      rw [← keeps.sentOnce event event' same] at event'
      exact settled.oneReceiver event.2 event'.2
    · intro u u' v left left' same
      obtain ⟨e,event⟩ := (settled.kept u v).mpr left
      obtain ⟨e',event'⟩ := (settled.kept u' v).mpr left'
      rw [← keeps.receivedOnce event event' same] at event'
      exact settled.oneSender event.1 event'.1
  · intro safe
    have left {e : Nat} {u v : Node} (event : events.Event e u v) : Kept nodes links listed streams u v :=
      (settled.kept u v).mp ⟨e,event⟩
    refine ⟨?_,settled.numbers,?_,settled.sendNodup,settled.receiveNodup,settled.oneSender,settled.oneReceiver,
      fun event => (left event).1.1.2,?_,?_⟩
    · intro u v
      constructor
      · apply TransGen.mono
        intro a b step
        refine step.imp_right ?_
        rintro ⟨e,event⟩
        exact (left event).1.1.edge
      · intro path
        refine GraphOrder.eventOrder topological path fun {a b} _ _ edge => ?_
        exact settled.edge_ordered topological safe (nodes.id b - nodes.id a).toNat edge (by omega)
    · intro e
      rw [settled.numbers]
      exact ⟨fun ⟨_,sent⟩ => settled.received sent,fun ⟨_,received⟩ => settled.sent received⟩
    · intro e e' u v v' event event' same
      exact settled.sentOnce event event' (congrArg listed (safe.sentOnce u v v' (left event) (left event') same))
    · intro e e' u u' v event event' same
      exact settled.receivedOnce event event' (congrArg listed (safe.receivedOnce u u' v (left event) (left event') same))

end Topological

/-- Lists that are up to date are safe. -/
theorem listsSafe_of_unmoved (noControls : ∀ u, links.outDataToControl u = []) : ListsSafe nodes links streams streams where
  readers u v v' link link' same earlier := ⟨v,.single (.inr link.edge),.single (.inl ⟨same,earlier⟩)⟩
  senders u u' v reader reader' same earlier := ⟨u',.single (.inl ⟨same,earlier⟩),.single (.inr reader'.1.edge)⟩
  controls u v control := by
    rw [noControls u] at control
    cases control
  sentOnce u v v' left left' same := nodes.distinctIds v v'
    ((left.1.2 v' left'.1.1 same.symm).antisymm (left'.1.2 v left.1.1 same))
  receivedOnce u u' v left left' same := nodes.distinctIds u u'
    ((left'.2 u left.1 same).antisymm (left.2 u' left'.1 same.symm))

theorem EventOrder.enters (path : EventOrder nodes streams events u v) (different : streams u ≠ streams v) :
    ∃ e a b, events.Event e a b ∧ streams b = streams v := by
  induction path with
  | @single v step =>
    rcases step with inStream | ⟨e,event⟩
    · exact absurd inStream.1 different
    · exact ⟨e,u,v,event,rfl⟩
  | @tail w v path step ih =>
    rcases step with inStream | ⟨e,event⟩
    · obtain ⟨e,a,b,event,same⟩ := ih fun same => different (same.trans inStream.1)
      exact ⟨e,a,b,event,same.trans inStream.1⟩
    · exact ⟨e,w,v,event,rfl⟩

variable [DecidableEq Node]

/-! The streams that the allocator itself assigns. -/

omit [DecidableEq Node] in
theorem foldl_listNode_congr {xs : List Node} {streams' : Node → Int} (agree : ∀ v ∈ xs, streams v = streams' v)
    (table : StreamToNodes Node) : xs.foldl (listNode streams) table = xs.foldl (listNode streams') table := by
  induction xs generalizing table with
  | nil => rfl
  | cons x xs ih =>
    rw [foldl_cons,foldl_cons,listNode,listNode,agree x mem_cons_self]
    exact ih (fun v later => agree v (.tail _ later)) _

def Refreshed (done : List Node) (state : (Node → Int) × StreamToNodes Node) : Prop :=
  state.2 = done.foldl (listNode state.1) ∅

variable {oldToNewStreams : TreeMap Int Int} {done : List Node} {state next : (Node → Int) × StreamToNodes Node}
  {start : Node → Int} {result : (Node → Int) × StreamToNodes Node}

theorem refreshStreamsForGraph_refreshed {graph : List Node} (nodup : (done ++ graph).Nodup) (refreshed : Refreshed done state)
    (ok : refreshStreamsForGraph nodes oldToNewStreams state graph = .ok next) : Refreshed (done ++ graph) next := by
  unfold refreshStreamsForGraph at ok
  induction graph generalizing done state with
  | nil =>
    cases ok
    simpa using refreshed
  | cons node graph ih =>
    rw [foldlM_cons] at ok
    obtain ⟨middle,first,rest⟩ := bind_ok ok
    obtain ⟨stream,_,isMiddle⟩ := bind_ok first
    rw [append_cons] at nodup ⊢
    refine ih nodup ?_ rest
    have fresh : node ∉ done :=
      fun old => disjoint_of_nodup_append nodup.of_append_left old (mem_singleton.mpr rfl)
    cases isMiddle
    rw [Refreshed] at refreshed ⊢
    rw [foldl_append,foldl_cons,foldl_nil,refreshed]
    refine congrArg (listNode _ · node) (foldl_listNode_congr ?_ ∅)
    intro v old
    have other : v ≠ node := fun same => fresh (same ▸ old)
    exact (Function.update_of_ne other _ _).symm

theorem refreshGraphs_refreshed {graphs : List (List Node)} (nodup : (done ++ graphs.flatten).Nodup)
    (refreshed : Refreshed done state) (ok : graphs.foldlM (refreshStreamsForGraph nodes oldToNewStreams) state = .ok next) :
    Refreshed (done ++ graphs.flatten) next := by
  induction graphs generalizing done state with
  | nil =>
    cases ok
    simpa using refreshed
  | cons graph graphs ih =>
    rw [foldlM_cons] at ok
    obtain ⟨middle,first,rest⟩ := bind_ok ok
    rw [flatten_cons,← append_assoc] at nodup ⊢
    exact ih nodup (refreshStreamsForGraph_refreshed nodup.of_append_left refreshed first) rest

section

variable (ok : refreshStreams nodes oldToNewStreams start = .ok result)
include ok

theorem refreshStreams_lists : result.2 = listStreamNodes nodes result.1 := by
  have nothing : Refreshed [] (start,(∅ : StreamToNodes Node)) := rfl
  exact refreshGraphs_refreshed nodes.nodup nothing ok

/-- With the lists that `RefreshStreams` has made, and whatever streams the nodes have when events are inserted, the order is kept
exactly if the lists are safe for the graph. -/
theorem insertEvents_keepsOrder_iff (topological : Topological nodes links) (valid : ∀ node, streams node ≠ kInvalidStream)
    (few : (crossPairs streams (linkPairs links nodes.graphs.flatten)).length < 4294967296) :
    (∃ events, insertEvents nodes links result.2 streams = .ok events ∧ KeepsOrder nodes links streams events) ↔
      ListsSafe nodes links result.1 streams := by
  rw [refreshStreams_lists ok]
  obtain ⟨events,inserted,settled⟩ := insertEvents_settled nodes links result.1 valid few
  rw [← settled.keepsOrder_iff topological,inserted]
  constructor
  · rintro ⟨_,⟨⟩,keeps⟩
    exact keeps
  · exact fun keeps => ⟨events,rfl,keeps⟩

end

/-! Two consumers of one node. -/

inductive ForkNode | producer | first | second
  deriving DecidableEq

instance : Fintype ForkNode := ⟨{.producer,.first,.second},fun node => by cases node <;> decide⟩

def forkNodes : StreamNodes ForkNode where
  name node := match node with
    | .producer => "producer"
    | .first => "first"
    | .second => "second"
  ownerGraph _ := "root"
  distinct := by decide
  graphs := [[.producer,.first,.second]]
  id node := match node with
    | .producer => 0
    | .first => 1
    | .second => 2
  hasSubgraphs _ := false
  isForcedAssignMainStream _ := false
  nodup := by decide
  all := by decide
  distinctIds := by decide

def forkLinks : Links ForkNode where
  outDataAnchors node := if node = .producer then [[.first,.second]] else []
  outControl _ := []
  outDataToControl _ := []

def forkStreams : ForkNode → Int := fun node => if node = .producer then 0 else 1

theorem fork_topological : Topological forkNodes forkLinks := by
  unfold Topological Links.Edge
  decide

theorem fork_keepsOrder : ∃ state events,
    refreshStreams forkNodes (.ofList [((0 : Int),(0 : Int)),(1,1)]) forkStreams = .ok state ∧
      insertEvents forkNodes forkLinks state.2 state.1 = .ok events ∧ KeepsOrder forkNodes forkLinks state.1 events := by
  have ok : refreshStreams forkNodes (.ofList [((0 : Int),(0 : Int)),(1,1)]) forkStreams = .ok _ := rfl
  have kept := (insertEvents_keepsOrder_iff ok fork_topological (by decide) (by decide)).mpr (listsSafe_of_unmoved fun _ => rfl)
  exact ⟨_,kept.choose,ok,kept.choose_spec⟩

def forkPass : List (PassCall ForkNode) := [.allocateNextStreamId,.setStreamId .second 2]

/-- The event to it is removed because of the one to the first consumer, and it no longer waits for the producer. -/
theorem forkPass_losesOrder : ∃ state events,
    refreshStreams forkNodes (.ofList [((0 : Int),(0 : Int)),(1,1)]) forkStreams = .ok state ∧ Topological forkNodes forkLinks ∧
      (∀ node, runCustomStreamPass forkPass 2 state.1 node ≠ kInvalidStream) ∧
      insertEvents forkNodes forkLinks state.2 (runCustomStreamPass forkPass 2 state.1) = .ok events ∧
      GraphOrder forkNodes forkLinks (runCustomStreamPass forkPass 2 state.1) .producer .second ∧
      ¬EventOrder forkNodes (runCustomStreamPass forkPass 2 state.1) events .producer .second := by
  refine ⟨_,_,rfl,fork_topological,by decide,rfl,.single (.inr (.inl (by decide))),?_⟩
  intro path
  obtain ⟨e,a,b,event,onStream⟩ := path.enters (by decide)
  match b,onStream,event with
  | .producer,onStream,_ => exact absurd onStream (by decide)
  | .first,onStream,_ => exact absurd onStream (by decide)
  | .second,_,event => exact absurd event.2 not_mem_nil

end GraphEngine.Streams
