import GraphEngine.Isolate.Relink

/-! `GraphUtils::IsolateNode` on compute graphs. Many control edges are replaced by a NoOp node, which is left out for nodes
that seem to be linked with all others. -/
namespace GraphEngine.Isolate.GraphUtils

open List LinkedGraph

open Relation (TransGen)
open Lib (Around Bypassed acyclic_of_rank)

variable {Node : Type} [DecidableEq Node] {g after : LinkedGraph Node} {node noop : Node} {ioMap : List Int}

def kNoOpOptimizeThreshold : Nat := 1000

def isNeedOptimizeWithNoOp (inSize outSize : Nat) : Bool :=
  inSize * outSize > kNoOpOptimizeThreshold && inSize * outSize > inSize + outSize

section Functions
variable (g : LinkedGraph Node)

/-- `connected_data_in_to_out` has an entry for each key. -/
def relinkControlNodeIfNeed (inNodes outNodes : List Node) (linked : List (Node × Node)) :
    List (Node × Node) :=
  ((emplaceAll g.key inNodes).flatMap fun a => outNodes.map (a,·)).foldl (fun control p =>
    if (linked.any fun link => g.key link.1 = g.key p.1 ∧ link.2 = p.2) ∨ p ∈ control ∨ p.1 = p.2 then control
    else control ++ [p]) g.control

/-- The entry of a node in a map of links; all links of nodes with one key are in one entry. -/
def seemsLinked (links : List Node) (a : Node) (size : Nat) : Bool :=
  let count := links.countP (g.key · = g.key a)
  count ≠ 0 && count = size

def relinkControlNodeWithNoOpOptimize (inNodes outNodes : List Node) (linked : List (Node × Node))
    (noop : Node) : List (Node × Node) :=
  let noopInNodes := inNodes.filter fun a => !seemsLinked g (linked.map (·.1)) a outNodes.length
  let noopOutNodes := outNodes.filter fun x => !seemsLinked g (linked.map (·.2)) x inNodes.length
  if noopInNodes = [] ∨ noopOutNodes = [] then g.control
  else g.control ++ noopInNodes.map (·,noop) ++ noopOutNodes.map (noop,·)

def needsNoOp (node : Node) : Bool :=
  isNeedOptimizeWithNoOp (g.inNodes node).dedup.length (g.outNodes node).dedup.length

def relinkControl (node noop : Node) (linked : List (Node × Node)) : List (Node × Node) :=
  if needsNoOp g node then
    relinkControlNodeWithNoOpOptimize g (g.inNodes node).dedup (g.outNodes node).dedup linked noop
  else relinkControlNodeIfNeed g (g.inNodes node) (g.outNodes node) linked

/-- `noop` is the node that `AddNode` makes if it is needed. -/
def isolateNode (node noop : Node) (ioMap : List Int) : Option (LinkedGraph Node) :=
  (relinkDataIo false g node ioMap).map fun state => finish g node state (relinkControl g node noop state.linked)

/-! The links that `RelinkDataIO` makes, from the graph and the map alone. -/

def outputLinks (node : Node) (ioMap : List Int) (i : Nat) : List (Node × Node) :=
  match g.data.find? fun e => e.dst = node ∧ e.dstInput = inIndex ioMap i with
  | none => []
  | some source => (g.data.filter fun e => e.src = node ∧ e.srcOutput = i).map fun reader => (source.src,reader.dst)

def movedLinks (node : Node) (ioMap : List Int) : List (Node × Node) :=
  (List.range (g.dataOutNum node)).flatMap (outputLinks g node ioMap)

end Functions

theorem filter_moveReaders {source : DataEdge Node} {readers : List (DataEdge Node)} {state : Relinked Node}
    {p : DataEdge Node → Bool} (outside : ∀ reader ∈ readers, p reader = false)
    (moved : ∀ reader ∈ readers, p (reader.redirect source) = false) :
    (moveReaders source readers state).data.filter p = state.data.filter p := by
  induction readers generalizing state with
  | nil => rfl
  | cons reader readers ih =>
    rw [moveReaders,foldl_cons,← moveReaders,ih (fun r there => outside r (.tail _ there)) fun r there => moved r (.tail _ there)]
    have first := outside reader (.head _)
    rw [filter_append,filter_filter,filter_singleton,moved reader (.head _),cond_false,append_nil]
    refine filter_congr fun e _ => ?_
    by_cases same : e = reader
    · simp [same,first]
    · simp [same]

/-- What is left to relink: the readers of the outputs from `i` on, and the edges into the node. -/
structure Untouched (g : LinkedGraph Node) (node : Node) (i : Nat) (data : List (DataEdge Node)) : Prop where
  readers : ∀ j, i ≤ j → (data.filter fun e => e.src = node ∧ e.srcOutput = j) =
    g.data.filter fun e => e.src = node ∧ e.srcOutput = j
  inputs : (data.filter fun e => e.dst = node) = g.data.filter fun e => e.dst = node

section Links
variable {i inNum : Nat} {state next : Relinked Node}

theorem Untouched.find {data : List (DataEdge Node)} (untouched : Untouched g node i data) (input : Int) :
    (data.find? fun e => e.dst = node ∧ e.dstInput = input) = g.data.find? fun e => e.dst = node ∧ e.dstInput = input := by
  have split : ∀ edges : List (DataEdge Node), (edges.find? fun e => e.dst = node ∧ e.dstInput = input) =
      (edges.filter fun e => e.dst = node).find? fun e => e.dstInput = input := by
    intro edges
    rw [find?_filter]
    simp only [Bool.decide_and,Bool.decide_eq_true]
  rw [split,split,untouched.inputs]

theorem Untouched.relinkOutput (wellFormed : g.WellFormed) (untouched : Untouched g node i state.data)
    (ok : relinkOutput false node inNum ioMap state i = some next) :
    Untouched g node (i + 1) next.data ∧ next.linked = state.linked ++ outputLinks g node ioMap i := by
  rw [Isolate.relinkOutput,untouched.readers i (Nat.le_refl i),untouched.find] at ok
  obtain ⟨readers,isReaders⟩ : ∃ readers, (g.data.filter fun e => e.src = node ∧ e.srcOutput = i) = readers := ⟨_,rfl⟩
  have reader : ∀ e ∈ readers, e.src = node ∧ e.dst ≠ node ∧ e.srcOutput = i := by
    intro e there
    rw [← isReaders,mem_filter,decide_eq_true_eq] at there
    exact ⟨there.2.1,wellFormed.noLoop there.1 there.2.1,there.2.2⟩
  rw [outputLinks,isReaders]
  simp only [isReaders] at ok
  split at ok
  · next negative =>
    have none : (g.data.find? fun e => e.dst = node ∧ e.dstInput = inIndex ioMap i) = none := by
      rw [find?_eq_none]
      intro e _ found
      have := (of_decide_eq_true found).2
      omega
    cases ok
    refine ⟨⟨fun j later => ?_,?_⟩,by rw [none,append_nil]⟩
    · rw [← untouched.readers j (by omega),filter_filter]
      refine filter_congr fun e _ => ?_
      have := reader e
      grind
    · rw [← untouched.inputs,filter_filter]
      refine filter_congr fun e _ => ?_
      have := reader e
      grind
  · split at ok
    · cases ok
    · split at ok
      · next none =>
        cases ok
        exact ⟨⟨fun j later => untouched.readers j (by omega),untouched.inputs⟩,by simp only [none,append_nil]⟩
      · next source found =>
        cases ok
        have src : source.src ≠ node := fun same =>
          wellFormed.noLoop (mem_of_find?_eq_some found) same (by simpa using (find?_some found) : _ ∧ _).1
        refine ⟨⟨fun j later => ?_,?_⟩,by simp only [found,moveReaders_linked]⟩
        · rw [← untouched.readers j (by omega)]
          refine filter_moveReaders (fun e there => ?_) fun e _ => by simp [DataEdge.redirect,src]
          have := reader e there
          grind
        · rw [← untouched.inputs]
          exact filter_moveReaders (fun e there => by simp [(reader e there).2.1])
            fun e there => by simp [DataEdge.redirect,(reader e there).2.1]

theorem relinkLoop_linked {count : Nat} (wellFormed : g.WellFormed) (untouched : Untouched g node i state.data)
    (ok : relinkLoop false node inNum ioMap (range' i count) state = some next) :
    next.linked = state.linked ++ (range' i count).flatMap (outputLinks g node ioMap) := by
  induction count generalizing i state with
  | zero =>
    cases ok
    simp
  | succ count ih =>
    obtain ⟨middle,first,rest⟩ := Option.bind_eq_some_iff.mp ok
    obtain ⟨left,linked⟩ := untouched.relinkOutput wellFormed first
    rw [ih left rest,linked,range'_succ,flatMap_cons,append_assoc]

theorem relinkDataIo_linked (wellFormed : g.WellFormed) (ok : relinkDataIo false g node ioMap = some state) :
    state.linked = movedLinks g node ioMap := by
  rw [relinkDataIo] at ok
  split at ok
  · cases ok
  · obtain ⟨last,looped,rfl⟩ := Option.map_eq_some_iff.mp ok
    rw [range_eq_range'] at looped
    rw [movedLinks,range_eq_range']
    exact relinkLoop_linked wellFormed ⟨fun _ _ => rfl,rfl⟩ looped

end Links

/-- Neither seems to be linked with all nodes of the other side. -/
def MeetAtNoOp (g : LinkedGraph Node) (node : Node) (ioMap : List Int) (a x : Node) : Prop :=
  (a ∈ g.inNodes node ∧
    seemsLinked g ((movedLinks g node ioMap).map (·.1)) a (g.outNodes node).dedup.length = false) ∧
  x ∈ g.outNodes node ∧ seemsLinked g ((movedLinks g node ioMap).map (·.2)) x (g.inNodes node).dedup.length = false

/-- The pairs that are linked in place of the node. -/
def JoinsOrMeets (g : LinkedGraph Node) (node : Node) (ioMap : List Int) (a x : Node) : Prop :=
  if needsNoOp g node then Moved false g node ioMap a x ∨ MeetAtNoOp g node ioMap a x else Joins false g node ioMap a x

theorem JoinsOrMeets.ends {a x : Node} (joins : JoinsOrMeets g node ioMap a x) : g.Edge a node ∧ g.Edge node x := by
  rw [JoinsOrMeets] at joins
  split at joins
  · rcases joins with moved | meet
    · exact moved.ends
    · exact ⟨edge_of_mem_inNodes meet.1.1,edge_of_mem_outNodes meet.2.1⟩
  · exact joins.ends

section Control
variable {state : Relinked Node}

theorem mem_relinkControlNodeIfNeed (rewired : Rewired false g node ioMap state) {a x : Node}
    (different : a ∈ g.inNodes node → x ∈ g.outNodes node → a ≠ x) :
    (a,x) ∈ state.linked ∨ (a,x) ∈ relinkControlNodeIfNeed g (g.inNodes node) (g.outNodes node) state.linked ↔
      (a,x) ∈ g.control ∨ Joins false g node ioMap a x := by
  have folded (pairs control : List (Node × Node)) : (a,x) ∈ pairs.foldl (fun control p =>
      if (state.linked.any fun link => g.key link.1 = g.key p.1 ∧ link.2 = p.2) ∨ p ∈ control ∨ p.1 = p.2 then control
      else control ++ [p]) control ↔ (a,x) ∈ control ∨ (a,x) ∈ pairs ∧
        (state.linked.any fun link => g.key link.1 = g.key a ∧ link.2 = x) = false ∧ a ≠ x := by
    induction pairs generalizing control with
    | nil => simp
    | cons q pairs ih =>
      rw [foldl_cons,ih]
      grind
  have moved : ∀ b, (b,x) ∈ state.linked ↔ Moved false g node ioMap b x := fun b => rewired.linked b x
  have none : (state.linked.any fun link => g.key link.1 = g.key a ∧ link.2 = x) = false ↔
      ∀ b, g.key b = g.key a → ¬Moved false g node ioMap b x := by
    simp only [← moved,any_eq_false,Prod.forall]
    grind
  have into : (g.inNodes node).find? (fun b => g.key b = g.key a) = some a → a ∈ g.inNodes node := mem_of_find?_eq_some
  rw [relinkControlNodeIfNeed,folded,mem_pairs,moved,Joins,none]
  grind

theorem mem_relinkControl_noop (wellFormed : g.WellFormed) (relinked : relinkDataIo false g node ioMap = some state)
    (need : needsNoOp g node = true) {u v : Node} : (u,v) ∈ relinkControl g node noop state.linked ↔ (u,v) ∈ g.control ∨
      v = noop ∧ (∃ x, MeetAtNoOp g node ioMap u x) ∨ u = noop ∧ ∃ a, MeetAtNoOp g node ioMap a v := by
  rw [relinkControl,if_pos need,relinkControlNodeWithNoOpOptimize,relinkDataIo_linked wellFormed relinked]
  split
  · next empty =>
    have none : ∀ a x, ¬MeetAtNoOp g node ioMap a x := by
      rintro a x ⟨⟨into,aFew⟩,out,xFew⟩
      rcases empty with empty | empty
      · have := filter_eq_nil_iff.mp empty a (mem_dedup.mpr into)
        simp [aFew] at this
      · have := filter_eq_nil_iff.mp empty x (mem_dedup.mpr out)
        simp [xFew] at this
    simp [none]
  · next some =>
    rw [not_or] at some
    obtain ⟨a,aIn⟩ := exists_mem_of_ne_nil _ some.1
    obtain ⟨x,xOut⟩ := exists_mem_of_ne_nil _ some.2
    simp only [mem_filter,mem_dedup,Bool.not_eq_true'] at aIn xOut
    simp only [mem_append,mem_map,mem_filter,mem_dedup,Bool.not_eq_true',MeetAtNoOp]
    grind

variable (wellFormed : g.WellFormed) (other : noop ≠ node) (fresh : ∀ a, ¬g.Edge a noop ∧ ¬g.Edge noop a)
  (relinked : relinkDataIo false g node ioMap = some state)
include wellFormed relinked

theorem edge_finish_few (few : ¬needsNoOp g node = true) {u v : Node} :
    (finish g node state (relinkControl g node noop state.linked)).Edge u v ↔
      Around g.Edge node u v ∨ JoinsOrMeets g node ioMap u v := by
  have rewired := relinkDataIo_rewired wellFormed relinked
  have different : u ∈ g.inNodes node → v ∈ g.outNodes node → u ≠ v := by
    rintro into out rfl
    exact wellFormed.acyclic u (.tail (.single (edge_of_mem_inNodes into)) (edge_of_mem_outNodes out))
  have known := mem_relinkControlNodeIfNeed rewired different
  have away : Joins false g node ioMap u v → u ≠ node ∧ v ≠ node :=
    fun joins => ⟨wellFormed.away (.inl joins.ends.1),wellFormed.away (.inr joins.ends.2)⟩
  rw [JoinsOrMeets,if_neg few,rewired.edge_finish,Around,LinkedGraph.Edge,relinkControl,if_neg few]
  grind

include other

theorem edge_finish_noop (need : needsNoOp g node = true) {u v : Node} :
    (finish g node state (relinkControl g node noop state.linked)).Edge u v ↔ Around g.Edge node u v ∨
      Moved false g node ioMap u v ∨ v = noop ∧ (∃ x, MeetAtNoOp g node ioMap u x) ∨ u = noop ∧ ∃ a,
        MeetAtNoOp g node ioMap a v := by
  have rewired := relinkDataIo_rewired wellFormed relinked
  have moved : (u,v) ∈ state.linked ↔ Moved false g node ioMap u v := rewired.linked u v
  have movedAway : Moved false g node ioMap u v → u ≠ node ∧ v ≠ node :=
    fun moved => ⟨wellFormed.away (.inl moved.ends.1),wellFormed.away (.inr moved.ends.2)⟩
  have meets : ∀ {a x}, MeetAtNoOp g node ioMap a x → a ≠ node ∧ x ≠ node := fun meet =>
    ⟨wellFormed.away (.inl (edge_of_mem_inNodes meet.1.1)),wellFormed.away (.inr (edge_of_mem_outNodes meet.2.1))⟩
  rw [rewired.edge_finish,Around,LinkedGraph.Edge,moved,mem_relinkControl_noop wellFormed relinked need]
  grind

include fresh

/-- Paths between old nodes are paths around the node or over pairs that are linked in its place. -/
theorem path_finish_iff {a x : Node} (aOld : a ≠ noop) (xOld : x ≠ noop) :
    TransGen (finish g node state (relinkControl g node noop state.linked)).Edge a x ↔
      TransGen (fun u v => Around g.Edge node u v ∨ JoinsOrMeets g node ioMap u v) a x := by
  by_cases need : needsNoOp g node = true
  · have edge := fun u v => @edge_finish_noop _ _ g node noop ioMap state wellFormed other relinked need u v
    have joins : ∀ {u v}, JoinsOrMeets g node ioMap u v ↔ Moved false g node ioMap u v ∨ MeetAtNoOp g node ioMap u v := by
      intro u v
      rw [JoinsOrMeets,if_pos need]
    have old : ∀ {u v}, JoinsOrMeets g node ioMap u v → u ≠ noop ∧ v ≠ noop := by
      intro u v joined
      refine ⟨?_,?_⟩
      · rintro rfl
        exact (fresh node).2 joined.ends.1
      · rintro rfl
        exact (fresh node).1 joined.ends.2
    have noMoved : ∀ {u}, ¬Moved false g node ioMap u noop ∧ ¬Moved false g node ioMap noop u :=
      ⟨fun moved => (old (joins.mpr (.inl moved))).2 rfl,fun moved => (old (joins.mpr (.inl moved))).1 rfl⟩
    have noMeet : ∀ {u}, ¬MeetAtNoOp g node ioMap u noop ∧ ¬MeetAtNoOp g node ioMap noop u :=
      ⟨fun meet => (old (joins.mpr (.inr meet))).2 rfl,fun meet => (old (joins.mpr (.inr meet))).1 rfl⟩
    constructor
    · -- the new node is cut out again
      have bypassed : Bypassed (finish g node state (relinkControl g node noop state.linked)).Edge
          (fun u v => Around g.Edge node u v ∨ JoinsOrMeets g node ioMap u v) noop := by
        intro b y into out
        rw [edge,Around] at into out
        have meets : (∃ z, MeetAtNoOp g node ioMap b z) ∧ ∃ c, MeetAtNoOp g node ioMap c y := by grind
        obtain ⟨⟨z,first⟩,c,second⟩ := meets
        exact .single (.inr (joins.mpr (.inr ⟨first.1,second.2⟩)))
      refine bypassed.path ?_ (fun u v uOld vOld there => ?_) aOld xOld
      · rw [edge,Around]
        grind
      · rw [edge] at there
        rw [joins]
        grind
    · refine fun path => TransGen.closed ?_ _ _ path
      rintro u v (around | joined)
      · exact .single ((edge u v).mpr (.inl around))
      · rcases joins.mp joined with moved | meet
        · exact .single ((edge u v).mpr (.inr (.inl moved)))
        · exact .tail (.single ((edge u noop).mpr (.inr (.inr (.inl ⟨rfl,v,meet⟩)))))
            ((edge noop v).mpr (.inr (.inr (.inr ⟨rfl,u,meet⟩))))
  · exact iff_of_eq (congrArg (TransGen · a x) (funext₂ fun u v => propext (edge_finish_few wellFormed relinked need)))

end Control

/-- The meaning is kept if and only if whatever went before the node still comes before what followed it: around the node, or
over a pair that is linked directly or by the NoOp node. -/
theorem isolateNode_keeps_iff (wellFormed : g.WellFormed) (other : noop ≠ node) (fresh : ∀ a, ¬g.Edge a noop ∧ ¬g.Edge noop a)
    (ok : isolateNode g node noop ioMap = some after) :
    KeepsMeaning g after node ioMap (fun a => a ≠ node ∧ a ≠ noop) ↔ StaysLinked (JoinsOrMeets g node ioMap) g node := by
  obtain ⟨state,relinked,rfl⟩ := Option.map_eq_some_iff.mp ok
  have rewired := relinkDataIo_rewired wellFormed relinked
  have away : ∀ a, g.Edge a node ∨ g.Edge node a → a ≠ node ∧ a ≠ noop := by
    intro a edge
    refine ⟨wellFormed.away edge,?_⟩
    rintro rfl
    exact edge.elim (fresh node).2 (fresh node).1
  rw [rewired.keeps_iff wellFormed (fun _ old => old.1) away (fun _ _ => JoinsOrMeets.ends) fun a x aOld xOld =>
    path_finish_iff wellFormed other fresh relinked aOld.2 xOld.2]
  exact and_iff_right fun _ _ => id

/-- Node 2 feeds node 0, which node 3 reads twice; node 4 follows it, and other nodes go before it. -/
def crowd (count : Nat) : LinkedGraph Nat where
  data := [⟨2,0,0,0⟩,⟨0,0,3,0⟩,⟨0,0,3,1⟩]
  control := (0,4) :: (List.range count).map fun i => (i + 5,0)
  mixed := []
  dataInNum _ := 2
  dataOutNum _ := 1
  key node := (String.ofList (replicate node 'n'),"g")

theorem crowd_edge {count u v : Nat} : (crowd count).Edge u v ↔
    u = 2 ∧ v = 0 ∨ u = 0 ∧ v = 3 ∨ u = 0 ∧ v = 4 ∨ 5 ≤ u ∧ u < count + 5 ∧ v = 0 := by
  simp only [LinkedGraph.Edge,crowd,mem_cons,mem_map,mem_range,Prod.mk.injEq,not_mem_nil,or_false]
  constructor
  · grind
  · rintro (⟨rfl,rfl⟩ | ⟨rfl,rfl⟩ | ⟨rfl,rfl⟩ | ⟨low,high,rfl⟩)
    · simp
    · simp
    · simp
    · exact .inr (.inr ⟨u - 5,by omega,by omega,rfl⟩)

variable (count : Nat)

theorem crowd_wellFormed : (crowd count).WellFormed := by
  refine ⟨by simp [crowd],acyclic_of_rank (fun u => if u = 0 then 1 else if u < 5 ∧ u ≠ 2 then 2 else 0) ?_⟩
  intro u v edge
  have := crowd_edge.mp edge
  grind

theorem crowd_staysLinked : StaysLinked (JoinsOrMeets (crowd 1) 0 [0]) (crowd 1) 0 := by
  have keys : ∀ a b, (crowd 1).key a = (crowd 1).key b → a = b := by
    intro a b same
    have lengths := congrArg (fun key : String × String => key.1.toList.length) same
    simpa [crowd] using lengths
  intro a x into out
  have before : a ∈ (crowd 1).inNodes 0 := by
    rcases crowd_edge.mp into with ⟨rfl,-⟩ | ⟨-,impossible⟩ | ⟨-,impossible⟩ | ⟨low,high,-⟩
    · decide
    · cases impossible
    · cases impossible
    · obtain rfl : a = 5 := by omega
      decide
  have behind : x ∈ (crowd 1).outNodes 0 := by
    rcases crowd_edge.mp out with ⟨impossible,-⟩ | ⟨-,rfl⟩ | ⟨-,rfl⟩ | ⟨low,-⟩
    · cases impossible
    · decide
    · decide
    · omega
  refine .inr ⟨a,x,?_,.refl,.refl⟩
  rw [JoinsOrMeets,if_neg (by decide)]
  exact joins_of_distinct (fun b _ => keys b a) before behind

theorem isolateNode_crowd_few :
    ∃ after, isolateNode (crowd 1) 0 1 [0] = some after ∧ KeepsMeaning (crowd 1) after 0 [0] fun a => a ≠ 0 ∧ a ≠ 1 := by
  refine ⟨_,rfl,(isolateNode_keeps_iff (crowd_wellFormed 1) (by decide) (fun a => ?_) rfl).mpr crowd_staysLinked⟩
  rw [crowd_edge,crowd_edge]
  omega

theorem crowd_outNodes : ((crowd count).outNodes 0).dedup = [3,4] := by
  have out : (crowd count).outNodes 0 = [3,3,4] := by simp [crowd,outNodes,filter_map,Function.comp_def]
  rw [out]
  rfl

theorem crowd_inNodes : ((crowd count).inNodes 0).dedup.length = count + 1 := by
  have into : (crowd count).inNodes 0 = 2 :: (List.range count).map (· + 5) := by
    simp [crowd,inNodes,filter_map,Function.comp_def]
  rw [into,dedup_eq_self.mpr]
  · simp
  · refine nodup_cons.mpr ⟨by simp,nodup_range.map fun a b same => ?_⟩
    exact Nat.add_right_cancel same

/-- The two links to node 3 are taken for links to both followers: node 2 does not reach node 4 any more. -/
theorem isolateNode_crowd_many : (crowd 500).WellFormed ∧ ∃ after, isolateNode (crowd 500) 0 1 [0] = some after ∧
    ¬KeepsMeaning (crowd 500) after 0 [0] fun a => a ≠ 0 ∧ a ≠ 1 := by
  obtain ⟨state,relinked⟩ : ∃ state, relinkDataIo false (crowd 500) 0 [0] = some state := ⟨_,rfl⟩
  have links : movedLinks (crowd 500) 0 [0] = [(2,3),(2,3)] := rfl
  have need : needsNoOp (crowd 500) 0 = true := by
    rw [needsNoOp,crowd_inNodes,crowd_outNodes]
    decide
  have seems : seemsLinked (crowd 500) ((movedLinks (crowd 500) 0 [0]).map (·.1)) 2 ((crowd 500).outNodes 0).dedup.length =
    true := by
    rw [links,crowd_outNodes]
    simp [seemsLinked]
  refine ⟨crowd_wellFormed 500,finish (crowd 500) 0 state (relinkControl (crowd 500) 0 1 state.linked),?_,fun keeps => ?_⟩
  · rw [isolateNode,relinked]
    rfl
  have step : ∀ {u v}, u = 2 ∨ u = 3 → (finish (crowd 500) 0 state (relinkControl (crowd 500) 0 1 state.linked)).Edge u v →
      v = 3 := by
    intro u v known edge
    rw [edge_finish_noop (crowd_wellFormed 500) (by decide) relinked need,Around,crowd_edge] at edge
    rcases edge with around | moved | ⟨rfl,x,meet⟩ | ⟨rfl,-⟩
    · omega
    · have := (relinkDataIo_rewired (crowd_wellFormed 500) relinked).linked u v |>.mpr moved
      rw [relinkDataIo_linked (crowd_wellFormed 500) relinked,links] at this
      grind
    · rcases known with rfl | rfl
      · exact absurd (seems.symm.trans meet.1.2) (by decide)
      · have := crowd_edge.mp (edge_of_mem_inNodes meet.1.1)
        omega
    · omega
  have last : ∀ v, TransGen (finish (crowd 500) 0 state (relinkControl (crowd 500) 0 1 state.linked)).Edge 2 v → v = 3 := by
    intro v path
    induction path with
    | single edge => exact step (.inl rfl) edge
    | tail _ edge ih => exact step (.inr ih) edge
  have into : (crowd 500).Edge 2 0 := crowd_edge.mpr (by decide)
  have out : (crowd 500).Edge 0 4 := crowd_edge.mpr (by decide)
  exact absurd (last 4 ((keeps.reach 2 4 (by decide) (by decide)).mpr (.tail (.single into) out))) (by decide)

end GraphEngine.Isolate.GraphUtils
