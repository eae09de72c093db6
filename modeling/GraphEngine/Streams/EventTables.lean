import Mathlib.Data.List.Basic

/-! The tables of the events that nodes send and receive. They are maps ordered by the name of a node and the name of
its graph. -/

namespace GraphEngine.Streams
open Std TreeMap

/-- The conversion to `uint32_t`. -/
def uint32 (n : Nat) : Nat := n % 4294967296

def kInvalidStream : Int := -1
def kMainStream : Int := 0

inductive Status where
  | failed
  | paramInvalid
  deriving DecidableEq,Repr

structure NodeKeys (Node : Type) where
  name : Node → String
  ownerGraph : Node → String
  distinct : ∀ u v, name u = name v → ownerGraph u = ownerGraph v → u = v

variable {Node : Type} {keys : NodeKeys Node}

/-- `NodeCompareKey`: by the name, then by the name of the graph. -/
def NodeKeys.nodeCompareKey (keys : NodeKeys Node) : Node → Node → Ordering :=
  compareLex (compareOn keys.name) (compareOn keys.ownerGraph)

instance : TransCmp keys.nodeCompareKey := inferInstanceAs (TransCmp (compareLex _ _))

instance : LawfulEqCmp keys.nodeCompareKey where
  eq_of_compare {u v} same := by
    have parts : compare (keys.name u) (keys.name v) = .eq ∧ compare (keys.ownerGraph u) (keys.ownerGraph v) = .eq := by
      simpa [NodeKeys.nodeCompareKey,compareLex,compareOn,Ordering.then_eq_eq] using same
    exact keys.distinct u v (LawfulEqCmp.eq_of_compare parts.1) (LawfulEqCmp.eq_of_compare parts.2)

abbrev SyncTable (keys : NodeKeys Node) := TreeMap Node (List Nat) keys.nodeCompareKey

def addEventId (node : Node) (eventId : Nat) (table : SyncTable keys) : SyncTable keys :=
  table.alter node fun eventIds => some (eventIds.getD [] ++ [eventId])

def rmvEventId (node : Node) (eventId : Nat) (table : SyncTable keys) : SyncTable keys :=
  table.modify node fun eventIds => eventIds.erase eventId

def getSyncIdList (node : Node) (table : SyncTable keys) : List Nat := table[node]?.getD []

def getNodeFromSyncId (syncId : Nat) (table : SyncTable keys) : Option Node :=
  (table.toList.find? fun entry => entry.2.contains syncId).map Prod.fst

structure Events (keys : NodeKeys Node) where
  eventNum : Nat
  nodeToSendEvents : SyncTable keys
  nodeToRecvEvents : SyncTable keys

namespace Events

def empty : Events keys := ⟨0,∅,∅⟩

variable (events : Events keys)

def addSendEventId (node : Node) (eventId : Nat) : Events keys :=
  { events with nodeToSendEvents := addEventId node eventId events.nodeToSendEvents }

def addRecvEventId (node : Node) (eventId : Nat) : Events keys :=
  { events with nodeToRecvEvents := addEventId node eventId events.nodeToRecvEvents }

def rmvSendEventId (node : Node) (eventId : Nat) : Events keys :=
  { events with nodeToSendEvents := rmvEventId node eventId events.nodeToSendEvents }

def rmvRecvEventId (node : Node) (eventId : Nat) : Events keys :=
  { events with nodeToRecvEvents := rmvEventId node eventId events.nodeToRecvEvents }

def sends (node : Node) : List Nat := getSyncIdList node events.nodeToSendEvents

def receives (node : Node) : List Nat := getSyncIdList node events.nodeToRecvEvents

def Event (eventId : Nat) (u v : Node) : Prop := eventId ∈ events.sends u ∧ eventId ∈ events.receives v

end Events

theorem getSyncIdList_addEventId [DecidableEq Node] (table : SyncTable keys) (node other : Node) (eventId : Nat) :
    getSyncIdList other (addEventId node eventId table) =
      if other = node then getSyncIdList node table ++ [eventId] else getSyncIdList other table := by
  rw [getSyncIdList,addEventId,getElem?_alter]
  by_cases same : node = other
  · rw [if_pos (LawfulEqCmp.compare_eq_iff_eq.mpr same),if_pos same.symm]
    rfl
  · rw [if_neg (mt LawfulEqCmp.compare_eq_iff_eq.mp same),if_neg (Ne.symm same)]
    rfl

theorem getSyncIdList_rmvEventId [DecidableEq Node] (table : SyncTable keys) (node other : Node) (eventId : Nat) :
    getSyncIdList other (rmvEventId node eventId table) =
      if other = node then (getSyncIdList node table).erase eventId else getSyncIdList other table := by
  rw [getSyncIdList,rmvEventId,getElem?_modify]
  by_cases same : node = other
  · rw [if_pos (LawfulEqCmp.compare_eq_iff_eq.mpr same),if_pos same.symm,getSyncIdList]
    cases table[node]? with
    | none => rfl
    | some eventIds => rfl
  · rw [if_neg (mt LawfulEqCmp.compare_eq_iff_eq.mp same),if_neg (Ne.symm same)]
    rfl

variable {table : SyncTable keys} {node : Node} {eventId : Nat}

theorem mem_toList_getSyncIdList {eventIds : List Nat}
    (entry : (node,eventIds) ∈ table.toList) : getSyncIdList node table = eventIds := by
  rw [getSyncIdList,mem_toList_iff_getElem?_eq_some.mp entry]
  rfl

variable (has : eventId ∈ getSyncIdList node table)
include has

theorem toList_of_mem : (node,getSyncIdList node table) ∈ table.toList := by
  rw [mem_toList_iff_getElem?_eq_some]
  rw [getSyncIdList] at has ⊢
  cases found : table[node]? with
  | none =>
    rw [found] at has
    cases has
  | some eventIds => rfl

theorem getNodeFromSyncId_eq (sole : ∀ other, eventId ∈ getSyncIdList other table → other = node) :
    getNodeFromSyncId eventId table = some node := by
  have some_ : (table.toList.find? fun entry => entry.2.contains eventId).isSome := by
    rw [List.find?_isSome]
    exact ⟨_,toList_of_mem has,by simpa using has⟩
  obtain ⟨entry,found⟩ := Option.isSome_iff_exists.mp some_
  have holds : eventId ∈ entry.2 := by simpa using List.find?_some found
  have known := mem_toList_getSyncIdList (List.mem_of_find?_eq_some found)
  rw [getNodeFromSyncId,found,Option.map_some,sole entry.1 (known ▸ holds)]

end GraphEngine.Streams
