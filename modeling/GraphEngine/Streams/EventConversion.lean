import GraphEngine.Streams.EventPasses

/-! The conversion of edges and the new ids: the first adds an event for each cross-stream edge, the second gives the
events that are left the first numbers. -/

namespace GraphEngine.Streams
open Std Lib List
variable {Node : Type} {keys : NodeKeys Node} {events : Events keys} {e : Nat} {u v : Node}

section Conversion
variable [DecidableEq Node] {streams : Node → Int}

structure Numbered (events : Events keys) : Prop extends Paired events where
  below : ∀ {e u}, e ∈ events.sends u → e < events.eventNum

omit [DecidableEq Node] in
theorem Numbered.receivedBelow (numbered : Numbered events) (received : e ∈ events.receives v) : e < events.eventNum := by
  obtain ⟨u,sent⟩ := numbered.sent received
  exact numbered.below sent

def addEvent (events : Events keys) (u v : Node) : Events keys :=
  { (events.addSendEventId u events.eventNum).addRecvEventId v events.eventNum with eventNum := events.eventNum + 1 }

variable (node : Node)

theorem sends_addEvent : (addEvent events u v).sends node =
    if node = u then events.sends u ++ [events.eventNum] else events.sends node :=
  getSyncIdList_addEventId _ _ _ _

theorem receives_addEvent : (addEvent events u v).receives node =
    if node = v then events.receives v ++ [events.eventNum] else events.receives node :=
  getSyncIdList_addEventId _ _ _ _

theorem mem_sends_addEvent : e ∈ (addEvent events u v).sends node ↔
    e ∈ events.sends node ∨ node = u ∧ e = events.eventNum := by
  rw [sends_addEvent]
  by_cases same : node = u
  · simp [same]
  · simp [same]

theorem mem_receives_addEvent : e ∈ (addEvent events u v).receives node ↔
    e ∈ events.receives node ∨ node = v ∧ e = events.eventNum := by
  rw [receives_addEvent]
  by_cases same : node = v
  · simp [same]
  · simp [same]

theorem event_addEvent (numbered : Numbered events) {a b : Node} : (addEvent events u v).Event e a b ↔
    events.Event e a b ∨ e = events.eventNum ∧ a = u ∧ b = v := by
  rw [Events.Event,mem_sends_addEvent,mem_receives_addEvent]
  constructor
  · rintro ⟨oldSent | ⟨isU,isNew⟩,oldReceived | ⟨isV,isNew'⟩⟩
    · exact .inl ⟨oldSent,oldReceived⟩
    · exact absurd (numbered.below oldSent) (by omega)
    · exact absurd (numbered.receivedBelow oldReceived) (by omega)
    · exact .inr ⟨isNew,isU,isV⟩
  · rintro (old | ⟨isNew,isU,isV⟩)
    · exact ⟨.inl old.1,.inl old.2⟩
    · exact ⟨.inr ⟨isU,isNew⟩,.inr ⟨isV,isNew⟩⟩

private theorem nodup_addEvent {ids : List Nat} {n : Nat} (nodup : ids.Nodup) (below : ∀ x ∈ ids, x < n) :
    (ids ++ [n]).Nodup := by
  refine nodup_append'.mpr ⟨nodup,nodup_singleton _,?_⟩
  intro x old new
  exact absurd (below x old) (by simp [mem_singleton.mp new])

theorem Numbered.addEvent (numbered : Numbered events) : Numbered (addEvent events u v) where
  sendNodup node := by
    rw [sends_addEvent]
    split
    · exact nodup_addEvent (numbered.sendNodup u) fun _ => numbered.below
    · exact numbered.sendNodup node
  receiveNodup node := by
    rw [receives_addEvent]
    split
    · exact nodup_addEvent (numbered.receiveNodup v) fun _ => numbered.receivedBelow
    · exact numbered.receiveNodup node
  oneSender {e a b} left right := by
    rw [mem_sends_addEvent] at left right
    rcases left with oldA | ⟨isA,newA⟩
    · rcases right with oldB | ⟨_,newB⟩
      · exact numbered.oneSender oldA oldB
      · exact absurd (numbered.below oldA) (by omega)
    · rcases right with oldB | ⟨isB,_⟩
      · exact absurd (numbered.below oldB) (by omega)
      · rw [isA,isB]
  oneReceiver {e a b} left right := by
    rw [mem_receives_addEvent] at left right
    rcases left with oldA | ⟨isA,newA⟩
    · rcases right with oldB | ⟨_,newB⟩
      · exact numbered.oneReceiver oldA oldB
      · exact absurd (numbered.receivedBelow oldA) (by omega)
    · rcases right with oldB | ⟨isB,_⟩
      · exact absurd (numbered.receivedBelow oldB) (by omega)
      · rw [isA,isB]
  received {e a} sent := by
    rcases (mem_sends_addEvent a).mp sent with old | ⟨_,new⟩
    · obtain ⟨b,received⟩ := numbered.received old
      exact ⟨b,(mem_receives_addEvent b).mpr (.inl received)⟩
    · exact ⟨v,(mem_receives_addEvent v).mpr (.inr ⟨rfl,new⟩)⟩
  sent {e b} received := by
    rcases (mem_receives_addEvent b).mp received with old | ⟨_,new⟩
    · obtain ⟨a,sent⟩ := numbered.sent old
      exact ⟨a,(mem_sends_addEvent a).mpr (.inl sent)⟩
    · exact ⟨u,(mem_sends_addEvent u).mpr (.inr ⟨rfl,new⟩)⟩
  below {e a} sent := by
    change e < events.eventNum + 1
    rcases (mem_sends_addEvent a).mp sent with old | ⟨_,new⟩
    · exact Nat.lt_succ_of_lt (numbered.below old)
    · omega

def crossPairs (streams : Node → Int) (pairs : List (Node × Node)) : List (Node × Node) :=
  pairs.filter fun pair => streams pair.1 ≠ streams pair.2

structure Converted (streams : Node → Int) (pairs : List (Node × Node)) (events : Events keys) : Prop extends
    Numbered events where
  count : events.eventNum = (crossPairs streams pairs).length
  events_iff : ∀ {u v}, (∃ e, events.Event e u v) ↔ (u,v) ∈ crossPairs streams pairs

theorem insertEventBetweenTwoNodes_step {pairs : List (Node × Node)} (converted : Converted streams pairs events)
    (validU : streams u ≠ kInvalidStream) (validV : streams v ≠ kInvalidStream)
    (few : (crossPairs streams (pairs ++ [(u,v)])).length < 4294967296) :
    ∃ next, insertEventBetweenTwoNodes streams u events v = .ok next ∧ Converted streams (pairs ++ [(u,v)]) next := by
  have split : crossPairs streams (pairs ++ [(u,v)]) =
      crossPairs streams pairs ++ if streams u = streams v then [] else [(u,v)] := by
    rw [crossPairs,filter_append,crossPairs]
    by_cases same : streams u = streams v
    · simp [same]
    · simp [same]
  by_cases same : streams u = streams v
  · rw [if_pos same,append_nil] at split
    refine ⟨events,?_,converted.toNumbered,?_,?_⟩
    · rw [insertEventBetweenTwoNodes,if_neg validU,if_neg validV,if_pos same]
    · rw [split]
      exact converted.count
    · intro a b
      rw [split]
      exact converted.events_iff
  · rw [if_neg same] at split
    have small : uint32 events.eventNum = events.eventNum := by
      rw [split,length_append,length_singleton,← converted.count] at few
      exact Nat.mod_eq_of_lt (by omega)
    refine ⟨addEvent events u v,?_,converted.toNumbered.addEvent,?_,?_⟩
    · rw [insertEventBetweenTwoNodes,if_neg validU,if_neg validV,if_neg same,small]
      rfl
    · rw [split,length_append,length_singleton,← converted.count]
      rfl
    · intro a b
      rw [split,mem_append,mem_singleton,← converted.events_iff]
      constructor
      · rintro ⟨e,event⟩
        rcases (event_addEvent converted.toNumbered).mp event with old | ⟨_,isU,isV⟩
        · exact .inl ⟨e,old⟩
        · exact .inr (by rw [isU,isV])
      · rintro (⟨e,old⟩ | new)
        · exact ⟨e,(event_addEvent converted.toNumbered).mpr (.inl old)⟩
        · obtain ⟨isU,isV⟩ := Prod.mk.inj new
          exact ⟨events.eventNum,(event_addEvent converted.toNumbered).mpr (.inr ⟨rfl,isU,isV⟩)⟩

def linkPairs (links : Links Node) (nodes : List Node) : List (Node × Node) :=
  nodes.flatMap fun u => (links.converted u).map (u,·)

omit [DecidableEq Node] in
theorem crossPairs_front {pairs more : List (Node × Node)} {bound : Nat}
    (few : (crossPairs streams (pairs ++ more)).length < bound) : (crossPairs streams pairs).length < bound := by
  rw [crossPairs,filter_append,length_append] at few
  exact Nat.lt_of_le_of_lt (Nat.le_add_right _ _) few

section Loops
variable {α : Type} {step : Events keys → α → Except Status (Events keys)} {pairsOf : α → List (Node × Node)}

/-- A step that makes the events for the pairs of an item as long as they can be numbered. -/
def Converts (streams : Node → Int) (step : Events keys → α → Except Status (Events keys))
    (pairsOf : α → List (Node × Node)) : Prop :=
  ∀ pairs events item, Converted streams pairs events → (crossPairs streams (pairs ++ pairsOf item)).length < 4294967296 →
    ∃ next, step events item = .ok next ∧ Converted streams (pairs ++ pairsOf item) next

omit [DecidableEq Node] in
theorem Converts.foldlM (converts : Converts streams step pairsOf) : Converts streams (foldlM step) (flatMap pairsOf) := by
  intro pairs events items converted few
  induction items generalizing pairs events with
  | nil => exact ⟨events,rfl,by simpa using converted⟩
  | cons item items ih =>
    rw [flatMap_cons,← append_assoc] at few ⊢
    obtain ⟨middle,first,convertedMiddle⟩ := converts pairs events item converted (crossPairs_front few)
    obtain ⟨next,rest,convertedNext⟩ := ih _ _ convertedMiddle few
    refine ⟨next,?_,convertedNext⟩
    rw [foldlM_cons,first]
    exact rest

theorem converts_graphs (links : Links Node) (valid : ∀ node, streams node ≠ kInvalidStream) :
    Converts streams (foldlM (convertEdgesToEvents links streams : Events keys → _ → _)) (flatMap (linkPairs links)) := by
  have fromNode (u : Node) : Converts streams (insertEventBetweenTwoNodes streams u : Events keys → _ → _) fun v => [(u,v)] :=
    fun _ _ v converted few => insertEventBetweenTwoNodes_step converted (valid u) (valid v) few
  apply Converts.foldlM
  apply Converts.foldlM
  intro pairs events u
  dsimp only
  rw [map_eq_flatMap]
  exact (fromNode u).foldlM pairs events _

end Loops

omit [DecidableEq Node] in
theorem Converted.empty (keys : NodeKeys Node) : Converted streams [] (Events.empty : Events keys) := by
  have noSends : ∀ node, (Events.empty : Events keys).sends node = [] := by
    intro node
    rw [Events.sends,Events.empty,getSyncIdList,TreeMap.getElem?_emptyc]
    rfl
  have noReceives : ∀ node, (Events.empty : Events keys).receives node = [] := by
    intro node
    rw [Events.receives,Events.empty,getSyncIdList,TreeMap.getElem?_emptyc]
    rfl
  refine ⟨⟨⟨?_,?_,?_,?_,?_,?_⟩,?_⟩,rfl,?_⟩
  all_goals simp [noSends,noReceives,Events.Event,crossPairs]

end Conversion

section Renumbering

theorem renumberEvent_run {ids : List Nat} (nodup : ids.Nodup) (few : ids.length < 4294967296) :
    (∀ e i : Nat, (ids.foldl renumberEvent (∅,0)).1[e]? = some i ↔ ids[i]? = some e) ∧
      (ids.foldl renumberEvent (∅,0)).2 = ids.length := by
  induction ids using List.reverseRecOn with
  | nil =>
    refine ⟨fun e i => ?_,rfl⟩
    rw [foldl_nil,TreeMap.getElem?_emptyc]
    simp
  | append_singleton ids x ih =>
    rw [length_append,length_singleton] at few
    obtain ⟨positions,next⟩ := ih nodup.of_append_left (by omega)
    have fresh : x ∉ ids := fun old => disjoint_of_nodup_append nodup old (mem_singleton.mpr rfl)
    have unknown : (ids.foldl renumberEvent (∅,0)).1[x]? = none := by
      rw [Option.eq_none_iff_forall_ne_some]
      intro i found
      exact fresh (mem_of_getElem? ((positions x i).mp found))
    have missing : (ids.foldl renumberEvent (∅,0)).1.contains x = false := by
      rw [TreeMap.contains_eq_isSome_getElem?,unknown]
      rfl
    rw [foldl_append,foldl_cons,foldl_nil,renumberEvent,missing]
    refine ⟨fun e i => ?_,?_⟩
    · change (TreeMap.insert _ x _)[e]? = some i ↔ _
      rw [TreeMap.getElem?_insert,next]
      by_cases isX : x = e
      · rw [if_pos (LawfulEqCmp.compare_eq_iff_eq.mpr isX),Option.some.injEq,← isX]
        constructor
        · rintro rfl
          exact getElem?_concat_length
        · intro found
          rcases lt_or_ge i ids.length with inside | outside
          · rw [getElem?_append_left inside] at found
            exact absurd (mem_of_getElem? found) fresh
          · have bound := (List.getElem?_eq_some_iff.mp found).1
            rw [length_append,length_singleton] at bound
            omega
      · rw [if_neg (mt LawfulEqCmp.compare_eq_iff_eq.mp isX),positions]
        rcases lt_or_ge i ids.length with inside | outside
        · rw [getElem?_append_left inside]
        · rw [getElem?_eq_none outside,getElem?_append_right outside]
          constructor
          · exact nofun
          · intro found
            exact absurd (mem_singleton.mp (mem_of_getElem? found)).symm isX
    · change uint32 (_ + 1) = _
      rw [next,length_append,length_singleton]
      exact Nat.mod_eq_of_lt few

def sentIds (events : Events keys) : List Nat := events.nodeToSendEvents.toList.flatMap Prod.snd

theorem mem_sentIds : e ∈ sentIds events ↔ ∃ u, e ∈ events.sends u := by
  rw [sentIds,mem_flatMap]
  constructor
  · rintro ⟨entry,inside,has⟩
    exact ⟨entry.1,by rw [Events.sends,mem_toList_getSyncIdList inside]; exact has⟩
  · rintro ⟨u,has⟩
    exact ⟨_,toList_of_mem has,has⟩

theorem sentIds_nodup (paired : Paired events) : (sentIds events).Nodup := by
  have byNode : sentIds events = (events.nodeToSendEvents.toList.map Prod.fst).flatMap events.sends := by
    rw [sentIds,flatMap_map]
    refine flatMap_congr fun entry inside => ?_
    exact (mem_toList_getSyncIdList inside).symm
  rw [byNode]
  apply flatMap_nodup paired.sendNodup paired.oneSender
  rw [List.Nodup,pairwise_map]
  refine TreeMap.distinct_keys_toList.imp fun different same => ?_
  exact different (LawfulEqCmp.compare_eq_iff_eq.mpr same)

theorem getSyncIdList_map (f : Nat → Nat) (node : Node) (table : SyncTable keys) :
    getSyncIdList node (table.map fun _ ids => ids.map f) = (getSyncIdList node table).map f := by
  rw [getSyncIdList,TreeMap.getElem?_map,getSyncIdList]
  cases table[node]? with
  | none => rfl
  | some ids => rfl

theorem refreshSyncIds_ok {oldToNewEvents : TreeMap Nat Nat} (table : SyncTable keys)
    (found : ∀ node, ∀ e ∈ getSyncIdList node table, oldToNewEvents.contains e = true) : refreshSyncIds oldToNewEvents table =
      .ok (table.map fun _ ids => ids.map fun eventId => oldToNewEvents.getD eventId 0) := by
  rw [refreshSyncIds,if_pos]
  rw [all_eq_true]
  intro entry inside
  rw [all_eq_true]
  intro e has
  exact found entry.1 e (by rwa [mem_toList_getSyncIdList inside])

theorem refreshContinuousEvents_run (paired : Paired events) (few : (sentIds events).length < 4294967296) :
    ∃ next f, refreshContinuousEvents 0 events = .ok next ∧ next.eventNum = (sentIds events).length ∧
      (∀ node, next.sends node = (events.sends node).map f ∧ next.receives node = (events.receives node).map f) ∧
      ∀ e i, e ∈ sentIds events → (f e = i ↔ (sentIds events)[i]? = some e) := by
  obtain ⟨positions,count⟩ := renumberEvent_run (sentIds_nodup paired) few
  let renumbered := (sentIds events).foldl renumberEvent (∅,0)
  have position : ∀ e ∈ sentIds events, ∃ i, renumbered.1[e]? = some i := by
    intro e inside
    obtain ⟨i,bound,found⟩ := getElem_of_mem inside
    exact ⟨i,(positions e i).mpr (List.getElem?_eq_some_iff.mpr ⟨bound,found⟩)⟩
  have contained : ∀ e ∈ sentIds events, renumbered.1.contains e = true := by
    intro e inside
    obtain ⟨i,found⟩ := position e inside
    rw [TreeMap.contains_eq_isSome_getElem?,found]
    rfl
  have numbers : ∀ e i, e ∈ sentIds events → (renumbered.1.getD e 0 = i ↔ (sentIds events)[i]? = some e) := by
    intro e i inside
    obtain ⟨j,found⟩ := position e inside
    rw [TreeMap.getD_eq_getD_getElem?,found,← positions e i]
    change j = i ↔ renumbered.1[e]? = some i
    rw [found,Option.some.injEq]
  by_cases none_ : renumbered.1.isEmpty = true
  · -- without events nothing is refreshed
    have empty : ∀ e, e ∉ sentIds events := by
      intro e inside
      have absent := TreeMap.isEmpty_iff_forall_contains.mp none_ e
      rw [contained e inside] at absent
      cases absent
    have noSends : ∀ node, events.sends node = [] := by
      intro node
      refine eq_nil_iff_forall_not_mem.mpr fun e sent => ?_
      exact empty e (mem_sentIds.mpr ⟨node,sent⟩)
    have noReceives : ∀ node, events.receives node = [] := by
      intro node
      refine eq_nil_iff_forall_not_mem.mpr fun e received => ?_
      obtain ⟨u,sent⟩ := paired.sent received
      exact empty e (mem_sentIds.mpr ⟨u,sent⟩)
    refine ⟨{ events with eventNum := renumbered.2 },fun e => renumbered.1.getD e 0,?_,count,?_,numbers⟩
    · change (refreshEventByReuseMap renumbered.1 events >>= _) = _
      rw [refreshEventByReuseMap,if_pos none_]
      rfl
    · intro node
      change events.sends node = _ ∧ events.receives node = _
      rw [noSends,noReceives]
      exact ⟨rfl,rfl⟩
  · have sendsOk := refreshSyncIds_ok events.nodeToSendEvents fun node e sent =>
      contained e (mem_sentIds.mpr ⟨node,sent⟩)
    have receivesOk := refreshSyncIds_ok events.nodeToRecvEvents fun node e received => by
      obtain ⟨u,sent⟩ := paired.sent received
      exact contained e (mem_sentIds.mpr ⟨u,sent⟩)
    let refresh : SyncTable keys → SyncTable keys := fun table => table.map fun _ ids => ids.map fun e => renumbered.1.getD e 0
    refine ⟨⟨renumbered.2,refresh events.nodeToSendEvents,refresh events.nodeToRecvEvents⟩,
      fun e => renumbered.1.getD e 0,?_,count,?_,numbers⟩
    · change (refreshEventByReuseMap renumbered.1 events >>= _) = _
      rw [refreshEventByReuseMap,if_neg none_,sendsOk,receivesOk]
      rfl
    · intro node
      exact ⟨getSyncIdList_map _ node _,getSyncIdList_map _ node _⟩

structure Renamed (before after : Events keys) (f : Nat → Nat) : Prop where
  injective : ∀ {e e' u u'}, e ∈ before.sends u → e' ∈ before.sends u' → f e = f e' → e = e'
  sends : ∀ node, after.sends node = (before.sends node).map f
  receives : ∀ node, after.receives node = (before.receives node).map f

namespace Renamed
variable {before after : Events keys} {f : Nat → Nat} (renamed : Renamed before after f)
include renamed

theorem injective_receives (paired : Paired before) {e e' : Nat} {v v' : Node}
    (left : e ∈ before.receives v) (right : e' ∈ before.receives v') (same : f e = f e') : e = e' := by
  obtain ⟨u,sent⟩ := paired.sent left
  obtain ⟨u',sent'⟩ := paired.sent right
  exact renamed.injective sent sent' same

theorem event (paired : Paired before) : after.Event e u v ↔ ∃ old, f old = e ∧ before.Event old u v := by
  rw [Events.Event,renamed.sends,renamed.receives,mem_map,mem_map]
  constructor
  · rintro ⟨⟨old,sent,isE⟩,old',received,isE'⟩
    obtain ⟨u',sent'⟩ := paired.sent received
    obtain rfl := renamed.injective sent sent' (isE.trans isE'.symm)
    exact ⟨old,isE,sent,received⟩
  · rintro ⟨old,isE,event⟩
    exact ⟨⟨old,event.1,isE⟩,old,event.2,isE⟩

theorem paired (paired : Paired before) : Paired after where
  sendNodup u := by
    rw [renamed.sends]
    exact (nodup_map_iff_inj_on (paired.sendNodup u)).mpr fun x left y right => renamed.injective left right
  receiveNodup v := by
    rw [renamed.receives]
    exact (nodup_map_iff_inj_on (paired.receiveNodup v)).mpr fun x left y right =>
      renamed.injective_receives paired left right
  oneSender {e u u'} left right := by
    rw [renamed.sends,mem_map] at left right
    obtain ⟨old,sent,isE⟩ := left
    obtain ⟨old',sent',isE'⟩ := right
    obtain rfl := renamed.injective sent sent' (isE.trans isE'.symm)
    exact paired.oneSender sent sent'
  oneReceiver {e v v'} left right := by
    rw [renamed.receives,mem_map] at left right
    obtain ⟨old,received,isE⟩ := left
    obtain ⟨old',received',isE'⟩ := right
    obtain rfl := renamed.injective_receives paired received received' (isE.trans isE'.symm)
    exact paired.oneReceiver received received'
  received {e u} sent := by
    rw [renamed.sends,mem_map] at sent
    obtain ⟨old,sent,isE⟩ := sent
    obtain ⟨v,received⟩ := paired.received sent
    exact ⟨v,by rw [renamed.receives]; exact mem_map.mpr ⟨old,received,isE⟩⟩
  sent {e v} received := by
    rw [renamed.receives,mem_map] at received
    obtain ⟨old,received,isE⟩ := received
    obtain ⟨u,sent⟩ := paired.sent received
    exact ⟨u,by rw [renamed.sends]; exact mem_map.mpr ⟨old,sent,isE⟩⟩

end Renamed

theorem refreshContinuousEvents_renames (paired : Paired events) (few : (sentIds events).length < 4294967296) :
    ∃ next f, refreshContinuousEvents 0 events = .ok next ∧ Renamed events next f ∧
      ∀ e, e < next.eventNum ↔ ∃ u, e ∈ next.sends u := by
  obtain ⟨next,f,run,count,moved,position⟩ := refreshContinuousEvents_run paired few
  have known : ∀ {e u}, e ∈ events.sends u → (sentIds events)[f e]? = some e :=
    fun sent => (position _ _ (mem_sentIds.mpr ⟨_,sent⟩)).mp rfl
  have renamed : Renamed events next f := by
    refine ⟨?_,fun node => (moved node).1,fun node => (moved node).2⟩
    intro e e' u u' sent sent' same
    have found := known sent
    rw [same,known sent',Option.some.injEq] at found
    exact found.symm
  refine ⟨next,f,run,renamed,?_⟩
  intro e
  rw [count]
  constructor
  · intro small
    have found : (sentIds events)[e]? = some (sentIds events)[e] := getElem?_eq_getElem small
    have inside := mem_of_getElem? found
    obtain ⟨u,sent⟩ := mem_sentIds.mp inside
    refine ⟨u,?_⟩
    rw [renamed.sends]
    exact mem_map.mpr ⟨_,sent,(position _ e inside).mpr found⟩
  · rintro ⟨u,sent⟩
    rw [renamed.sends,mem_map] at sent
    obtain ⟨old,sent,isE⟩ := sent
    have found := known sent
    rw [isE] at found
    exact (List.getElem?_eq_some_iff.mp found).1

end Renumbering
end GraphEngine.Streams
