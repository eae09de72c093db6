import GraphEngine.Lib.AddedEdges
import GraphEngine.Lib.Bypass

/-! `RelinkDataIO`: whatever reads a mapped output of a node is linked to the source of the input that it is mapped to. A
slot or an anchor list of the graph is the part of the edge list that belongs to it. -/
namespace GraphEngine.Isolate

open List

open Relation (TransGen)
open Lib (Bridged Around paths_iff_bridged)

variable {Node : Type}

structure DataEdge (Node : Type) where
  src : Node
  srcOutput : Nat
  dst : Node
  dstInput : Nat
  deriving DecidableEq

structure LinkedGraph (Node : Type) where
  data : List (DataEdge Node)
  control : List (Node × Node)
  /-- Links between a data anchor and a control anchor of a compute graph; fast graphs refuse them. -/
  mixed : List (Node × Node)
  dataInNum : Node → Nat
  dataOutNum : Node → Nat
  /-- The names of a node and of its graph, by which maps of nodes are ordered. -/
  key : Node → String × String

def LinkedGraph.Edge (g : LinkedGraph Node) (u v : Node) : Prop :=
  (∃ e ∈ g.data, e.src = u ∧ e.dst = v) ∨ (u,v) ∈ g.control ∨ (u,v) ∈ g.mixed

structure LinkedGraph.WellFormed (g : LinkedGraph Node) : Prop where
  oneSource : ∀ e ∈ g.data, ∀ e' ∈ g.data, e.dst = e'.dst → e.dstInput = e'.dstInput → e = e'
  acyclic : ∀ u, ¬ TransGen g.Edge u u

variable {g : LinkedGraph Node} {node : Node}

theorem LinkedGraph.WellFormed.noLoop (wellFormed : g.WellFormed) {e : DataEdge Node}
    (there : e ∈ g.data) (src : e.src = node) : e.dst ≠ node := fun dst =>
  wellFormed.acyclic node (.single (.inl ⟨e,there,src,dst⟩))

theorem LinkedGraph.WellFormed.away {a : Node} (wellFormed : g.WellFormed)
    (edge : g.Edge a node ∨ g.Edge node a) : a ≠ node := by
  rintro rfl
  exact wellFormed.acyclic a (.single (edge.elim id id))

variable [DecidableEq Node]

scoped instance pairs_lawful : LawfulBEq (Node × Node) := inferInstance

def DataEdge.redirect (reader source : DataEdge Node) : DataEdge Node :=
  ⟨source.src,source.srcOutput,reader.dst,reader.dstInput⟩

structure Relinked (Node : Type) where
  data : List (DataEdge Node)
  linked : List (Node × Node)

def moveReaders (source : DataEdge Node) (readers : List (DataEdge Node)) (state : Relinked Node) : Relinked Node :=
  readers.foldl (fun state reader =>
    ⟨state.data.filter (· ≠ reader) ++ [reader.redirect source],state.linked ++ [(source.src,reader.dst)]⟩) state

def inIndex (ioMap : List Int) (i : Nat) : Int := ioMap.getD i (-1)

/-- One round of the loop. `takesInput`: the edge into the input is removed before its readers are moved. -/
def relinkOutput (takesInput : Bool) (node : Node) (inNum : Nat) (ioMap : List Int) (state : Relinked Node) (i : Nat) :
    Option (Relinked Node) :=
  let readers := state.data.filter fun e => e.src = node ∧ e.srcOutput = i
  if inIndex ioMap i < 0 then some { state with data := state.data.filter (· ∉ readers) }
  else if (inNum : Int) ≤ inIndex ioMap i then none
  else
    match state.data.find? fun e => e.dst = node ∧ e.dstInput = inIndex ioMap i with
    | none => some state
    | some source =>
      let data := if takesInput then state.data.filter (· ≠ source) else state.data
      some (moveReaders source readers { state with data := data })

def relinkLoop (takesInput : Bool) (node : Node) (inNum : Nat) (ioMap : List Int) : List Nat → Relinked Node →
    Option (Relinked Node)
  | [],state => some state
  | i :: rest,state => (relinkOutput takesInput node inNum ioMap state i).bind (relinkLoop takesInput node inNum ioMap rest)

def relinkDataIo (takesInput : Bool) (g : LinkedGraph Node) (node : Node) (ioMap : List Int) : Option (Relinked Node) :=
  if g.dataOutNum node < ioMap.length then none
  else
    (relinkLoop takesInput node (g.dataInNum node) ioMap (List.range (g.dataOutNum node)) ⟨g.data,[]⟩).map fun state =>
      { state with data := state.data.filter (·.dst ≠ node) }

theorem moveReaders_linked (source : DataEdge Node) (readers : List (DataEdge Node)) (state : Relinked Node) :
    (moveReaders source readers state).linked = state.linked ++ readers.map fun reader => (source.src,reader.dst) := by
  induction readers generalizing state with
  | nil => simp [moveReaders]
  | cons reader readers ih =>
    rw [moveReaders,foldl_cons,← moveReaders,ih]
    simp

theorem mem_moveReaders {source : DataEdge Node} {readers : List (DataEdge Node)} {state : Relinked Node}
    (outside : ∀ reader ∈ readers, reader.src ≠ source.src) (e : DataEdge Node) : e ∈ (moveReaders source readers state).data ↔
      e ∈ state.data ∧ e ∉ readers ∨ ∃ reader ∈ readers, e = reader.redirect source := by
  induction readers generalizing state with
  | nil => simp [moveReaders]
  | cons reader readers ih =>
    rw [moveReaders,foldl_cons,← moveReaders,ih fun r there => outside r (.tail _ there)]
    grind [DataEdge.redirect]

variable {takesInput : Bool} {ioMap : List Int}

/-- A reader and the source that it gets: where inputs are taken, only the first output that is mapped to one gets it. -/
structure Moves (takesInput : Bool) (g : LinkedGraph Node) (node : Node) (ioMap : List Int) (source reader : DataEdge Node) :
    Prop where
  into : source ∈ g.data ∧ source.dst = node
  outOf : reader ∈ g.data ∧ reader.src = node
  mapped : inIndex ioMap reader.srcOutput = source.dstInput
  first : takesInput = true → ∀ i < reader.srcOutput, inIndex ioMap i ≠ source.dstInput

/-- The state when the outputs below `done` have been relinked. -/
structure Progress (takesInput : Bool) (g : LinkedGraph Node) (node : Node) (ioMap : List Int) (done : Nat)
    (state : Relinked Node) : Prop where
  outer : ∀ e : DataEdge Node, e.src ≠ node → e.dst ≠ node → (e ∈ state.data ↔ e ∈ g.data ∨
    ∃ source reader, Moves takesInput g node ioMap source reader ∧ reader.srcOutput < done ∧ e = reader.redirect source)
  outputs : ∀ e : DataEdge Node, e.src = node → done ≤ e.srcOutput → (e ∈ state.data ↔ e ∈ g.data)
  inputs : ∀ e : DataEdge Node, e.dst = node →
    (e ∈ state.data ↔ e ∈ g.data ∧ (takesInput = true → ∀ i < done, inIndex ioMap i ≠ e.dstInput))
  linked : ∀ a x, (a,x) ∈ state.linked ↔ ∃ source reader, Moves takesInput g node ioMap source reader ∧
    reader.srcOutput < done ∧ source.src = a ∧ reader.dst = x

section
variable {i inNum : Nat} {state after : Relinked Node} (progress : Progress takesInput g node ioMap i state)
include progress

omit [DecidableEq Node] in
theorem Progress.next
    (outer : ∀ e : DataEdge Node, e.src ≠ node → e.dst ≠ node → (e ∈ after.data ↔ e ∈ state.data ∨
      ∃ source reader, Moves takesInput g node ioMap source reader ∧ reader.srcOutput = i ∧ e = reader.redirect source))
    (outputs : ∀ e : DataEdge Node, e.src = node → i < e.srcOutput → (e ∈ after.data ↔ e ∈ state.data))
    (inputs : ∀ e : DataEdge Node, e.dst = node →
      (e ∈ after.data ↔ e ∈ state.data ∧ (takesInput = true → inIndex ioMap i ≠ e.dstInput)))
    (linked : ∀ a x, (a,x) ∈ after.linked ↔ (a,x) ∈ state.linked ∨ ∃ source reader,
      Moves takesInput g node ioMap source reader ∧ reader.srcOutput = i ∧ source.src = a ∧ reader.dst = x) :
    Progress takesInput g node ioMap (i + 1) after := by
  refine ⟨fun e src dst => ?_,fun e src later => ?_,fun e dst => ?_,fun a x => ?_⟩
  · rw [outer e src dst,progress.outer e src dst]
    simp only [Nat.lt_succ_iff_lt_or_eq]
    grind
  · rw [outputs e src later,progress.outputs e src (by omega)]
  · rw [inputs e dst,progress.inputs e dst]
    simp only [Nat.lt_succ_iff_lt_or_eq]
    grind
  · rw [linked,progress.linked]
    simp only [Nat.lt_succ_iff_lt_or_eq]
    grind

theorem Progress.relinkOutput (wellFormed : g.WellFormed)
    (ok : relinkOutput takesInput node inNum ioMap state i = some after) :
    Progress takesInput g node ioMap (i + 1) after := by
  have noLoop : ∀ e ∈ g.data, e.src = node → e.dst ≠ node := fun _ => wellFormed.noLoop
  generalize readersEq : state.data.filter (fun e => e.src = node ∧ e.srcOutput = i) = readers
  have mem_readers : ∀ e : DataEdge Node, e ∈ readers ↔ e ∈ g.data ∧ e.src = node ∧ e.srcOutput = i := by
    intro e
    have := progress.outputs e
    grind
  simp only [Isolate.relinkOutput,readersEq] at ok
  split at ok
  · next negative =>
    have unmapped : ∀ source reader, Moves takesInput g node ioMap source reader → reader.srcOutput ≠ i := by
      intro source reader moves same
      have := moves.mapped
      rw [same] at this
      omega
    cases ok
    refine progress.next ?_ ?_ ?_ ?_
    all_goals grind
  · split at ok
    · cases ok
    · split at ok
      · next none =>
        cases ok
        have absent : ∀ e ∈ state.data, e.dst = node → inIndex ioMap i ≠ e.dstInput := by
          have := find?_eq_none.mp none
          grind
        have unmapped : ∀ source reader, Moves takesInput g node ioMap source reader → reader.srcOutput ≠ i := by
          intro source reader moves same
          have there := (progress.inputs source moves.into.2).mpr ⟨moves.into.1,same ▸ moves.first⟩
          exact absent source there moves.into.2 (same ▸ moves.mapped)
        refine progress.next ?_ ?_ ?_ ?_ <;> grind
      · next source found =>
        cases ok
        have there := mem_of_find?_eq_some found
        have dst : source.dst = node ∧ inIndex ioMap i = source.dstInput := by
          have := find?_some found
          grind
        have known := (progress.inputs source dst.1).mp there
        have moves : ∀ reader ∈ readers, Moves takesInput g node ioMap source reader := by
          intro reader mem
          obtain ⟨mem,src,rfl⟩ := (mem_readers reader).mp mem
          exact ⟨⟨known.1,dst.1⟩,⟨mem,src⟩,dst.2,known.2⟩
        have only : ∀ other reader, Moves takesInput g node ioMap other reader → reader.srcOutput = i →
            other = source ∧ reader ∈ readers := by
          intro other reader moves same
          refine ⟨wellFormed.oneSource _ moves.into.1 _ known.1 (moves.into.2.trans dst.1.symm) ?_,?_⟩
          · have := moves.mapped
            rw [same] at this
            omega
          · exact (mem_readers reader).mpr ⟨moves.outOf.1,moves.outOf.2,same⟩
        have src : source.src ≠ node := fun same => noLoop source known.1 same dst.1
        generalize dataEq : (if takesInput then state.data.filter (· ≠ source) else state.data) = data
        have mem_data : ∀ e : DataEdge Node, e ∈ data ↔ e ∈ state.data ∧ (takesInput = true → e ≠ source) := by
          rw [← dataEq]
          cases takesInput <;> simp
        have mem := @mem_moveReaders Node _ source readers ⟨data,state.linked⟩ fun reader mem =>
          ((mem_readers reader).mp mem).2.1.trans_ne src.symm
        simp only [mem_data] at mem
        refine progress.next (fun e eSrc eDst => ?_) (fun e eSrc later => ?_) (fun e eDst => ?_) fun a x => ?_
        · rw [mem]
          grind
        · rw [mem]
          grind [DataEdge.redirect]
        · rw [mem]
          have := progress.inputs e eDst
          have := wellFormed.oneSource e
          grind [DataEdge.redirect]
        · rw [moveReaders_linked]
          simp only [mem_append,mem_map,Prod.mk.injEq]
          grind


theorem Progress.relinkLoop {count : Nat} (wellFormed : g.WellFormed)
    (ok : relinkLoop takesInput node inNum ioMap (range' i count) state = some after) :
    Progress takesInput g node ioMap (i + count) after := by
  induction count generalizing i state with
  | zero =>
    cases ok
    exact progress
  | succ count ih =>
    obtain ⟨middle,first,rest⟩ := Option.bind_eq_some_iff.mp ok
    rw [← Nat.succ_add_eq_add_succ]
    exact ih (progress.relinkOutput wellFormed first) rest

end

/-- What `RelinkDataIO` leaves between the other nodes. -/
structure Rewired (takesInput : Bool) (g : LinkedGraph Node) (node : Node) (ioMap : List Int) (state : Relinked Node) :
    Prop where
  data : ∀ e : DataEdge Node, e.src ≠ node → e.dst ≠ node → (e ∈ state.data ↔ e ∈ g.data ∨
    ∃ source reader, Moves takesInput g node ioMap source reader ∧ e = reader.redirect source)
  linked : ∀ a x, (a,x) ∈ state.linked ↔
    ∃ source reader, Moves takesInput g node ioMap source reader ∧ source.src = a ∧ reader.dst = x

theorem relinkDataIo_rewired {state : Relinked Node} (wellFormed : g.WellFormed)
    (ok : relinkDataIo takesInput g node ioMap = some state) : Rewired takesInput g node ioMap state := by
  rw [relinkDataIo] at ok
  split at ok
  · cases ok
  · next long =>
    obtain ⟨last,looped,rfl⟩ := Option.map_eq_some_iff.mp ok
    rw [range_eq_range'] at looped
    have start : Progress takesInput g node ioMap 0 ⟨g.data,[]⟩ := ⟨by simp,by simp,by simp,by simp⟩
    have progress := start.relinkLoop wellFormed looped
    have below : ∀ source reader, Moves takesInput g node ioMap source reader →
        reader.srcOutput < 0 + g.dataOutNum node := by
      intro source reader moves
      have mapped := moves.mapped
      by_contra beyond
      rw [inIndex,getD_eq_getElem?_getD,getElem?_eq_none (by omega),Option.getD_none] at mapped
      omega
    refine ⟨fun e src dst => ?_,fun a x => ?_⟩
    · have := progress.outer e src dst
      grind
    · have := progress.linked a x
      grind

/-- The nodes that a map ordered by keys gets: of those with one key the first. -/
def emplaceAll (key : Node → String × String) : List Node → List Node
  | [] => []
  | a :: rest => a :: (emplaceAll key rest).filter (key · ≠ key a)

omit [DecidableEq Node] in
theorem mem_emplaceAll {key : Node → String × String} {nodes : List Node} {a : Node} :
    a ∈ emplaceAll key nodes ↔ nodes.find? (fun b => key b = key a) = some a := by
  induction nodes with
  | nil => simp [emplaceAll]
  | cons b nodes ih =>
    rw [emplaceAll,mem_cons,mem_filter,ih,find?_cons]
    by_cases same : key b = key a
    · simp [same,eq_comm]
    · have other : a ≠ b := fun here => same (by rw [here])
      simp [same,other,Ne.symm same]

namespace LinkedGraph

def inNodes (g : LinkedGraph Node) (node : Node) : List Node :=
  (g.data.filter (·.dst = node)).map (·.src) ++ (g.control.filter (·.2 = node)).map (·.1)

def outNodes (g : LinkedGraph Node) (node : Node) : List Node :=
  (g.data.filter (·.src = node)).map (·.dst) ++ (g.control.filter (·.1 = node)).map (·.2)

def unlinkAll (g : LinkedGraph Node) (node : Node) : LinkedGraph Node :=
  { g with
    data := g.data.filter fun e => e.src ≠ node ∧ e.dst ≠ node
    control := g.control.filter fun p => p.1 ≠ node ∧ p.2 ≠ node
    mixed := g.mixed.filter fun p => p.1 ≠ node ∧ p.2 ≠ node }

theorem edge_of_mem_inNodes {a : Node} (into : a ∈ g.inNodes node) : g.Edge a node := by
  simp only [inNodes,mem_append,mem_map,mem_filter] at into
  rw [Edge]
  grind

theorem edge_of_mem_outNodes {a : Node} (out : a ∈ g.outNodes node) : g.Edge node a := by
  simp only [outNodes,mem_append,mem_map,mem_filter] at out
  rw [Edge]
  grind

theorem edge_unlinkAll {u v : Node} : (g.unlinkAll node).Edge u v ↔ g.Edge u v ∧ u ≠ node ∧ v ≠ node := by
  simp only [unlinkAll,Edge,mem_filter]
  grind

theorem mem_pairs {a x : Node} : (a,x) ∈ ((emplaceAll g.key (g.inNodes node)).flatMap fun a => (g.outNodes node).map (a,·)) ↔
    (g.inNodes node).find? (fun b => g.key b = g.key a) = some a ∧ x ∈ g.outNodes node := by
  rw [← mem_emplaceAll,mem_flatMap]
  simp only [mem_map]
  grind

end LinkedGraph

/-- The node is cut out: what read a mapped output reads the source of its input, and the old nodes reach each other as
before. -/
structure KeepsMeaning (g after : LinkedGraph Node) (node : Node) (ioMap : List Int) (old : Node → Prop) : Prop where
  isolated : ∀ u, ¬ after.Edge u node ∧ ¬ after.Edge node u
  data : ∀ e : DataEdge Node, e ∈ after.data ↔ e ∈ g.data ∧ e.src ≠ node ∧ e.dst ≠ node ∨
    ∃ source reader, Moves false g node ioMap source reader ∧ e = reader.redirect source
  reach : ∀ u v, old u → old v → (TransGen after.Edge u v ↔ TransGen g.Edge u v)

variable {state : Relinked Node} {control : List (Node × Node)}

/-- The end of `IsolateNode`. -/
def finish (g : LinkedGraph Node) (node : Node) (state : Relinked Node) (control : List (Node × Node)) : LinkedGraph Node :=
  { g with data := state.data,control := control }.unlinkAll node

/-- `a` is linked to a reader of a mapped output. -/
def Moved (takesInput : Bool) (g : LinkedGraph Node) (node : Node) (ioMap : List Int) (a x : Node) : Prop :=
  ∃ source reader, Moves takesInput g node ioMap source reader ∧ source.src = a ∧ reader.dst = x

/-- What is linked in place of the node: a moved reader with its source, and an in-node that is the first of its key with every
out-node to which no node of that key is linked already. -/
def Joins (takesInput : Bool) (g : LinkedGraph Node) (node : Node) (ioMap : List Int) (a x : Node) : Prop :=
  Moved takesInput g node ioMap a x ∨ (g.inNodes node).find? (fun b => g.key b = g.key a) = some a ∧ x ∈ g.outNodes node ∧
    ∀ b, g.key b = g.key a → ¬Moved takesInput g node ioMap b x

/-- Whatever went before the node still comes before what followed it: around the node, or over a pair that is joined. -/
def StaysLinked (joins : Node → Node → Prop) (g : LinkedGraph Node) (node : Node) : Prop :=
  ∀ a x, g.Edge a node → g.Edge node x → Bridged g.Edge joins node a x

omit [DecidableEq Node] in
theorem Moved.ends {a x : Node} (moved : Moved takesInput g node ioMap a x) : g.Edge a node ∧ g.Edge node x := by
  obtain ⟨source,reader,moves,rfl,rfl⟩ := moved
  exact ⟨.inl ⟨source,moves.into.1,rfl,moves.into.2⟩,.inl ⟨reader,moves.outOf.1,moves.outOf.2,rfl⟩⟩

theorem Joins.ends {a x : Node} (joins : Joins takesInput g node ioMap a x) : g.Edge a node ∧ g.Edge node x := by
  rcases joins with moved | ⟨first,out,-⟩
  · exact moved.ends
  · exact ⟨LinkedGraph.edge_of_mem_inNodes (mem_of_find?_eq_some first),LinkedGraph.edge_of_mem_outNodes out⟩

/-- In-nodes with keys of their own are joined with all out-nodes. -/
theorem joins_of_distinct {a x : Node} (distinct : ∀ b, g.Edge b node → g.key b = g.key a → b = a)
    (into : a ∈ g.inNodes node) (out : x ∈ g.outNodes node) : Joins takesInput g node ioMap a x := by
  by_cases moved : Moved takesInput g node ioMap a x
  · exact .inl moved
  · refine .inr ⟨?_,out,fun b same movedB => moved (distinct b movedB.ends.1 same ▸ movedB)⟩
    have some : ((g.inNodes node).find? fun b => g.key b = g.key a).isSome := find?_isSome.mpr ⟨a,into,by simp⟩
    obtain ⟨b,found⟩ := Option.isSome_iff_exists.mp some
    have same : g.key b = g.key a := by simpa using find?_some found
    rw [found,distinct b (LinkedGraph.edge_of_mem_inNodes (mem_of_find?_eq_some found)) same]

variable (rewired : Rewired takesInput g node ioMap state)
include rewired

theorem Rewired.edge_finish {u v : Node} : (finish g node state control).Edge u v ↔
      ((∃ e ∈ g.data, e.src = u ∧ e.dst = v) ∨ (u,v) ∈ state.linked ∨ (u,v) ∈ control ∨ (u,v) ∈ g.mixed) ∧
        u ≠ node ∧ v ≠ node := by
  rw [finish,LinkedGraph.edge_unlinkAll]
  refine and_congr_left fun others => ?_
  have moved : (∃ e ∈ state.data, e.src = u ∧ e.dst = v) ↔ (∃ e ∈ g.data, e.src = u ∧ e.dst = v) ∨ (u,v) ∈ state.linked := by
    rw [rewired.linked]
    constructor
    · rintro ⟨e,there,rfl,rfl⟩
      rcases (rewired.data e others.1 others.2).mp there with old | ⟨source,reader,moves,rfl⟩
      · exact .inl ⟨e,old,rfl,rfl⟩
      · exact .inr ⟨source,reader,moves,rfl,rfl⟩
    · rintro (⟨e,old,rfl,rfl⟩ | ⟨source,reader,moves,rfl,rfl⟩)
      · exact ⟨e,(rewired.data e others.1 others.2).mpr (.inl old),rfl,rfl⟩
      · exact ⟨reader.redirect source,(rewired.data (reader.redirect source) others.1 others.2).mpr
          (.inr ⟨source,reader,moves,rfl⟩),rfl,rfl⟩
  rw [LinkedGraph.Edge,moved,or_assoc]

theorem Rewired.data_iff (wellFormed : g.WellFormed) :
    (∀ e : DataEdge Node, e ∈ (finish g node state control).data ↔ e ∈ g.data ∧ e.src ≠ node ∧ e.dst ≠ node ∨
      ∃ source reader, Moves false g node ioMap source reader ∧ e = reader.redirect source) ↔
    ∀ source reader, Moves false g node ioMap source reader → Moves takesInput g node ioMap source reader := by
  have mem : ∀ e : DataEdge Node, e ∈ (finish g node state control).data ↔
      e ∈ state.data ∧ e.src ≠ node ∧ e.dst ≠ node := by simp [finish,LinkedGraph.unlinkAll]
  simp only [mem]
  constructor
  · intro exact source reader moves
    obtain ⟨there,src,dst⟩ := (exact (reader.redirect source)).mpr (.inr ⟨source,reader,moves,rfl⟩)
    rcases (rewired.data _ src dst).mp there with old | ⟨source',reader',moves',same⟩
    · -- the input has a source already, the node itself
      have same := wellFormed.oneSource _ old reader moves.outOf.1 rfl rfl
      exact absurd ((congrArg DataEdge.src same).trans moves.outOf.2) src
    · obtain ⟨-,-,dst,dstInput⟩ := (DataEdge.mk.injEq ..).mp same
      obtain rfl := wellFormed.oneSource reader moves.outOf.1 reader' moves'.outOf.1 dst dstInput
      obtain rfl := wellFormed.oneSource source moves.into.1 source' moves'.into.1 (moves.into.2.trans moves'.into.2.symm)
        (by exact_mod_cast moves.mapped.symm.trans moves'.mapped)
      exact moves'
  · intro all e
    constructor
    · rintro ⟨there,src,dst⟩
      refine ((rewired.data e src dst).mp there).imp (fun old => ⟨old,src,dst⟩) ?_
      rintro ⟨source,reader,moves,same⟩
      exact ⟨source,reader,{ moves with first := nofun },same⟩
    · rintro (⟨old,src,dst⟩ | ⟨source,reader,moves,rfl⟩)
      · exact ⟨(rewired.data e src dst).mpr (.inl old),src,dst⟩
      · have src : source.src ≠ node := fun same => wellFormed.noLoop moves.into.1 same moves.into.2
        have dst : reader.dst ≠ node := wellFormed.noLoop moves.outOf.1 moves.outOf.2
        exact ⟨(rewired.data (reader.redirect source) src dst).mpr (.inr ⟨source,reader,all source reader moves,rfl⟩),src,dst⟩

/-- What is left to show of the control edges: with them old nodes are joined by the paths that the joined pairs give. -/
theorem Rewired.keeps_iff (wellFormed : g.WellFormed) {old : Node → Prop} {joins : Node → Node → Prop}
    (others : ∀ a, old a → a ≠ node) (ends : ∀ a, g.Edge a node ∨ g.Edge node a → old a)
    (joined : ∀ a x, joins a x → g.Edge a node ∧ g.Edge node x) (paths : ∀ a x, old a → old x →
      (TransGen (finish g node state control).Edge a x ↔ TransGen (fun u v => Around g.Edge node u v ∨ joins u v) a x)) :
    KeepsMeaning g (finish g node state control) node ioMap old ↔
      (∀ source reader, Moves false g node ioMap source reader → Moves takesInput g node ioMap source reader) ∧
      StaysLinked joins g node := by
  have reach : (∀ a x, old a → old x → (TransGen (finish g node state control).Edge a x ↔ TransGen g.Edge a x)) ↔
      StaysLinked joins g node := by
    rw [StaysLinked,← paths_iff_bridged wellFormed.acyclic joined ends others]
    refine forall_congr' fun a => forall_congr' fun x => forall_congr' fun aOld => forall_congr' fun xOld => ?_
    rw [paths a x aOld xOld]
  rw [← rewired.data_iff wellFormed,← reach]
  refine ⟨fun keeps => ⟨keeps.data,keeps.reach⟩,fun both => ⟨fun u => ?_,both.1,both.2⟩⟩
  rw [rewired.edge_finish,rewired.edge_finish]
  exact ⟨fun edge => edge.2.2 rfl,fun edge => edge.2.1 rfl⟩

end GraphEngine.Isolate
