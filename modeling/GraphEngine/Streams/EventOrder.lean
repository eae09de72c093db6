import Mathlib.Data.List.Perm.Subperm
import GraphEngine.Streams.EventConversion

/-! The order of the nodes under the events that are left, and which changes of streams after the nodes were listed
keep it the order of the graph. -/

namespace GraphEngine.Streams
open Std Lib Relation List Option
variable {Node : Type} {nodes : StreamNodes Node} {links : Links Node} {listed streams : Node → Int}

/-! The lists of nodes. -/

theorem getD_foldl_listNode (xs : List Node) (stream : Int) :
    ((xs.foldl (listNode streams) ∅)[stream]?).getD [] = xs.filter fun v => streams v = stream := by
  induction xs using List.reverseRecOn with
  | nil =>
    rw [foldl_nil,TreeMap.getElem?_emptyc]
    rfl
  | append_singleton xs x ih =>
    rw [foldl_append,foldl_cons,foldl_nil,listNode,TreeMap.getElem?_alter,filter_append]
    by_cases same : streams x = stream
    · rw [if_pos (LawfulEqCmp.compare_eq_iff_eq.mpr same),getD_some,same,ih]
      simp [same]
    · rw [if_neg (mt LawfulEqCmp.compare_eq_iff_eq.mp same),ih]
      simp [same]

structure ListsOf (nodes : StreamNodes Node) (listed : Node → Int) (lists : List (List Node)) : Prop where
  sorted : ∀ {list}, list ∈ lists → list.Pairwise fun u v => nodes.id u < nodes.id v
  same : ∀ {list}, list ∈ lists → ∀ u ∈ list, ∀ v ∈ list, listed u = listed v
  complete : ∀ v, ∃ list ∈ lists, ∀ u, listed u = listed v → u ∈ list

def sortedNodes (nodes : StreamNodes Node) (listed : Node → Int) (stream : Int) : List Node :=
  (nodes.graphs.flatten.filter fun v => listed v = stream).insertionSort fun u v => nodes.id u ≤ nodes.id v

variable {stream : Int} {v : Node} {list : List Node} {events : Events nodes.toNodeKeys}

theorem mem_sortedNodes : v ∈ sortedNodes nodes listed stream ↔ listed v = stream := by
  rw [sortedNodes,mem_insertionSort,mem_filter,decide_eq_true_eq]
  exact ⟨And.right,fun isStream => ⟨nodes.all v,isStream⟩⟩

theorem sortedNodes_sorted (stream : Int) :
    (sortedNodes nodes listed stream).Pairwise fun u v => nodes.id u < nodes.id v := by
  have nodup : (sortedNodes nodes listed stream).Nodup :=
    (perm_insertionSort _ _).nodup_iff.mpr (nodes.nodup.filter _)
  have ordered : (sortedNodes nodes listed stream).Pairwise fun u v => nodes.id u ≤ nodes.id v := by
    have : IsTrans Node fun u v => nodes.id u ≤ nodes.id v := ⟨fun _ _ _ first second => first.trans second⟩
    have : Std.Total fun u v : Node => nodes.id u ≤ nodes.id v := ⟨fun u v => le_total (nodes.id u) (nodes.id v)⟩
    exact pairwise_insertionSort _ _
  refine List.Pairwise.imp ?_ (ordered.and nodup)
  rintro u v ⟨ordered,different⟩
  exact ordered.lt_of_ne fun same => different (nodes.distinctIds u v same)

theorem sortStreamNodes_entry : (stream,list) ∈ (sortStreamNodes nodes (listStreamNodes nodes listed)).toList →
      list = sortedNodes nodes listed stream := by
  intro entry
  rw [sortStreamNodes,TreeMap.mem_toList_iff_getElem?_eq_some,TreeMap.getElem?_map] at entry
  obtain ⟨original,found,isSorted⟩ := map_eq_some_iff.mp entry
  have filtered : ((listStreamNodes nodes listed)[stream]?).getD [] = _ := getD_foldl_listNode nodes.graphs.flatten stream
  rw [found,getD_some] at filtered
  rw [← isSorted,filtered,sortedNodes]

theorem sortStreamNodes_known (v : Node) :
    (listed v,sortedNodes nodes listed (listed v)) ∈ (sortStreamNodes nodes (listStreamNodes nodes listed)).toList := by
  have filtered : ((listStreamNodes nodes listed)[listed v]?).getD [] = _ :=
    getD_foldl_listNode nodes.graphs.flatten (listed v)
  rw [sortStreamNodes,TreeMap.mem_toList_iff_getElem?_eq_some,TreeMap.getElem?_map]
  cases found : (listStreamNodes nodes listed)[listed v]? with
  | none =>
    rw [found,getD_none] at filtered
    have impossible : v ∈ ([] : List Node) := filtered ▸ mem_filter.mpr ⟨nodes.all v,by simp⟩
    cases impossible
  | some original =>
    rw [found,getD_some] at filtered
    rw [map_some,filtered,sortedNodes]

theorem listStreamNodes_lists (nodes : StreamNodes Node) (listed : Node → Int) :
    ListsOf nodes listed ((sortStreamNodes nodes (listStreamNodes nodes listed)).toList.map Prod.snd) where
  sorted {list} inside := by
    obtain ⟨entry,known,isList⟩ := mem_map.mp inside
    rw [← isList,sortStreamNodes_entry known]
    exact sortedNodes_sorted entry.1
  same {list} inside u insideU v insideV := by
    obtain ⟨entry,known,isList⟩ := mem_map.mp inside
    rw [← isList,sortStreamNodes_entry known,mem_sortedNodes] at insideU insideV
    rw [insideU,insideV]
  complete v := ⟨_,mem_map_of_mem (sortStreamNodes_known v),fun _ same => mem_sortedNodes.mpr same⟩

/-! What is left. -/

def CrossLink (links : Links Node) (streams : Node → Int) (u v : Node) : Prop :=
  v ∈ links.converted u ∧ streams u ≠ streams v

section Settled
variable (nodes links listed streams events)

/-- Of the nodes of one list that are linked with `u`, the event to the first one is left. -/
def FirstReader (u v : Node) : Prop :=
  CrossLink links streams u v ∧ ∀ v', CrossLink links streams u v' → listed v' = listed v → nodes.id v ≤ nodes.id v'

/-- Of the nodes of one list that have an event to `v` then, the event of the last one is left. -/
def Kept (u v : Node) : Prop :=
  FirstReader nodes links listed streams u v ∧
    ∀ u', FirstReader nodes links listed streams u' v → listed u' = listed u → nodes.id u' ≤ nodes.id u

structure Settled : Prop extends Paired events where
  numbers : ∀ e, e < events.eventNum ↔ ∃ u, e ∈ events.sends u
  kept : ∀ u v, (∃ e, events.Event e u v) ↔ Kept nodes links listed streams u v
  sentOnce : ∀ {e e' u v v'}, events.Event e u v → events.Event e' u v' → listed v = listed v' → e = e'
  receivedOnce : ∀ {e e' u u' v}, events.Event e u v → events.Event e' u' v → listed u = listed u' → e = e'

end Settled

/-- Where one event is left for each key, it is the one of least rank. -/
theorem Thinned.least_iff {before after : Events nodes.toNodeKeys} {implied : Node × Node → Node × Node → Prop} {κ : Type}
    (key : Node × Node → κ) (rank : Node × Node → Int) (thinned : Thinned implied before after)
    (implies : ∀ {kept gone}, implied kept gone → key kept = key gone ∧ rank kept ≤ rank gone)
    (distinct : ∀ {a b}, key a = key b → rank a = rank b → a = b)
    (once : ∀ {e e' a b}, after.Event e a.1 a.2 → after.Event e' b.1 b.2 → key a = key b → a = b) (link : Node × Node) :
    (∃ e, after.Event e link.1 link.2) ↔ (∃ e, before.Event e link.1 link.2) ∧
      ∀ other, (∃ e, before.Event e other.1 other.2) → key other = key link → rank link ≤ rank other := by
  obtain ⟨_,restricts⟩ := thinned.restricts
  have older {e : Nat} {link : Node × Node} (event : after.Event e link.1 link.2) : before.Event e link.1 link.2 :=
    (restricts.event.mp event).1
  constructor
  · rintro ⟨e,event⟩
    refine ⟨⟨e,older event⟩,?_⟩
    rintro other ⟨e',event'⟩ same
    obtain ⟨_,left,present,isImplied⟩ := thinned.covered event'
    obtain ⟨sameKey,lower⟩ := implies isImplied
    rwa [once present event (sameKey.trans same)] at lower
  · rintro ⟨⟨e,event⟩,least⟩
    obtain ⟨e',left,present,isImplied⟩ := thinned.covered event
    obtain ⟨sameKey,lower⟩ := implies isImplied
    have same := distinct sameKey (lower.antisymm (least left ⟨e',older present⟩ sameKey))
    rw [same] at present
    exact ⟨e',present⟩

variable [DecidableEq Node]

theorem optimizeEvents_run (listed : Node → Int) (paired : Paired events) :
    ∃ middle after, optimizeEvents nodes (listStreamNodes nodes listed) events = .ok after ∧
      Thinned (ReceivedEarlier nodes.id listed) events middle ∧ Thinned (SentLater nodes.id listed) middle after ∧
      (∀ {e e' u v v'}, middle.Event e u v → middle.Event e' u v' → listed v = listed v' → e = e') ∧
      ∀ {e e' u u' v}, after.Event e u v → after.Event e' u' v → listed u = listed u' → e = e' := by
  have lists := listStreamNodes_lists nodes listed
  obtain ⟨middle,runSend,thinnedSend,onceSend⟩ := streams_run (ReceivedEarlier nodes.id listed) SentOnce
    (fun _ => ⟨rfl,rfl,le_rfl⟩)
    (fun first second => ⟨first.1.trans second.1,first.2.1.trans second.2.1,first.2.2.trans second.2.2⟩)
    (fun restricts once => fun left right => once (restricts.event.mp left).1 (restricts.event.mp right).1)
    (fun inside paired => optimizeBySendEvents_stream paired (lists.sorted inside) (lists.same inside)) paired
  obtain ⟨_,restrictsSend⟩ := thinnedSend.restricts
  obtain ⟨after,runRecv,thinnedRecv,onceRecv⟩ := streams_run (SentLater nodes.id listed) ReceivedOnce
    (fun _ => ⟨rfl,rfl,le_rfl⟩)
    (fun first second => ⟨first.1.trans second.1,first.2.1.trans second.2.1,second.2.2.trans first.2.2⟩)
    (fun restricts once => fun left right => once (restricts.event.mp left).1 (restricts.event.mp right).1)
    (fun inside paired => optimizeByRecvEvents_stream paired (lists.sorted inside) (lists.same inside))
    (restrictsSend.paired paired)
  refine ⟨middle,after,?_,thinnedSend,thinnedRecv,?_,?_⟩
  · change (optimizeBySendEvents _ events >>= _) = _
    rw [optimizeBySendEvents,runSend]
    exact runRecv
  · intro e e' u v v' left right same
    obtain ⟨list,known,inList⟩ := lists.complete v
    exact onceSend list known left right (inList v rfl) (inList v' same.symm)
  · intro e e' u u' v left right same
    obtain ⟨list,known,inList⟩ := lists.complete u
    exact onceRecv list known left right (inList u rfl) (inList u' same.symm)

omit [DecidableEq Node] in
theorem mem_linkPairs {u : Node} : (u,v) ∈ linkPairs links list ↔ u ∈ list ∧ v ∈ links.converted u := by
  rw [linkPairs,mem_flatMap]
  constructor
  · rintro ⟨w,inside,pair⟩
    obtain ⟨x,target,isPair⟩ := mem_map.mp pair
    obtain ⟨isU,isV⟩ := Prod.mk.inj isPair
    exact ⟨isU ▸ inside,isU ▸ isV ▸ target⟩
  · rintro ⟨inside,target⟩
    exact ⟨u,inside,mem_map_of_mem target⟩

theorem insertEvents_settled (nodes : StreamNodes Node) (links : Links Node) (listed : Node → Int)
    (valid : ∀ node, streams node ≠ kInvalidStream)
    (few : (crossPairs streams (linkPairs links nodes.graphs.flatten)).length < 4294967296) :
    ∃ events, insertEvents nodes links (listStreamNodes nodes listed) streams = .ok events ∧
      Settled nodes links listed streams events := by
  have flat : nodes.graphs.flatMap (linkPairs links) = linkPairs links nodes.graphs.flatten := by
    rw [linkPairs,← flatMap_id,flatMap_assoc]
    rfl
  obtain ⟨start,run,converted⟩ := converts_graphs links valid [] _ nodes.graphs (.empty nodes.toNodeKeys)
    (by rwa [nil_append,flat])
  rw [nil_append,flat] at converted
  have numbered := converted.toNumbered
  have cross : ∀ {u v}, (∃ e, start.Event e u v) ↔ CrossLink links streams u v := by
    intro u v
    rw [converted.events_iff,crossPairs,mem_filter,decide_eq_true_eq,mem_linkPairs,CrossLink]
    exact and_congr_left fun _ => and_iff_right (nodes.all u)
  obtain ⟨middle,after,optimized,thinnedSend,thinnedRecv,sentOnce,receivedOnce⟩ :=
    optimizeEvents_run listed numbered.toPaired
  obtain ⟨_,restrictsSend⟩ := thinnedSend.restricts
  obtain ⟨_,restrictsRecv⟩ := thinnedRecv.restricts
  have restricts := restrictsSend.trans restrictsRecv
  have paired := restricts.paired numbered.toPaired
  have short : (sentIds after).length ≤ start.eventNum := by
    have inside : sentIds after ⊆ List.range start.eventNum := by
      intro e known
      obtain ⟨u,sent⟩ := mem_sentIds.mp known
      rw [(restricts u).1,mem_filter] at sent
      exact mem_range.mpr (numbered.below sent.1)
    have short := ((sentIds_nodup paired).subperm inside).length_le
    rwa [length_range] at short
  obtain ⟨final,f,refreshed,renamed,numbers⟩ := refreshContinuousEvents_renames paired
    (short.trans_lt (converted.count ▸ few))
  have first (u v : Node) : (∃ e, middle.Event e u v) ↔ FirstReader nodes links listed streams u v := by
    have least := thinnedSend.least_iff (fun link => (link.1,listed link.2)) (fun link => nodes.id link.2)
      (fun implied => ⟨Prod.ext implied.1 implied.2.1,implied.2.2⟩)
      (fun same rank => Prod.ext (Prod.mk.inj same).1 (nodes.distinctIds _ _ rank)) ?_ (u,v)
    · refine least.trans (and_congr cross ⟨fun all v' link same => all (u,v') (cross.mpr link) (Prod.ext rfl same),?_⟩)
      rintro all ⟨a,b⟩ link same
      obtain ⟨rfl,list⟩ := Prod.mk.inj same
      exact all b (cross.mp link) list
    · intro e e' a b left right same
      obtain ⟨sender,list⟩ := Prod.mk.inj same
      rw [← sender] at right
      rw [← sentOnce left right list] at right
      exact Prod.ext sender ((restrictsSend.paired numbered.toPaired).oneReceiver left.2 right.2)
  have last (u v : Node) : (∃ e, after.Event e u v) ↔ Kept nodes links listed streams u v := by
    have least := thinnedRecv.least_iff (fun link => (link.2,listed link.1)) (fun link => -nodes.id link.1)
      (fun implied => ⟨Prod.ext implied.1 implied.2.1,Int.neg_le_neg implied.2.2⟩)
      (fun same rank => Prod.ext (nodes.distinctIds _ _ (Int.neg_inj.mp rank)) (Prod.mk.inj same).1) ?_ (u,v)
    · refine least.trans (and_congr (first u v) ⟨fun all u' reader same => ?_,?_⟩)
      · exact Int.neg_le_neg_iff.mp (all (u',v) ((first u' v).mpr reader) (Prod.ext rfl same))
      · rintro all ⟨a,b⟩ reader same
        obtain ⟨rfl,list⟩ := Prod.mk.inj same
        exact Int.neg_le_neg (all a ((first a b).mp reader) list)
    · intro e e' a b left right same
      obtain ⟨receiver,list⟩ := Prod.mk.inj same
      rw [← receiver] at right
      rw [← receivedOnce left right list] at right
      exact Prod.ext (paired.oneSender left.1 right.1) receiver
  refine ⟨final,?_,renamed.paired paired,numbers,?_,?_,?_⟩
  · rw [insertEvents,run]
    change (optimizeEvents _ _ start >>= _) = _
    rw [optimized]
    exact refreshed
  · intro u v
    rw [← last]
    constructor
    · rintro ⟨e,event⟩
      obtain ⟨old,_,present⟩ := (renamed.event paired).mp event
      exact ⟨old,present⟩
    · rintro ⟨e,event⟩
      exact ⟨f e,(renamed.event paired).mpr ⟨e,rfl,event⟩⟩
  · intro e e' u v v' left right same
    obtain ⟨old,isE,present⟩ := (renamed.event paired).mp left
    obtain ⟨old',isE',present'⟩ := (renamed.event paired).mp right
    rw [← isE,← isE',sentOnce (restrictsRecv.event.mp present).1 (restrictsRecv.event.mp present').1 same]
  · intro e e' u u' v left right same
    obtain ⟨old,isE,present⟩ := (renamed.event paired).mp left
    obtain ⟨old',isE',present'⟩ := (renamed.event paired).mp right
    rw [← isE,← isE',receivedOnce present present' same]

end GraphEngine.Streams
