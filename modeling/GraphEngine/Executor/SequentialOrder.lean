import Mathlib.Algebra.Order.BigOperators.Group.Finset
import Mathlib.Data.Fin.VecNotation
import GraphEngine.Lib.StableQueue
import GraphEngine.Executor.Rerun

/-! The order in which the sequential builder reads the nodes of an execute graph: by priority among those whose inputs were all
read, first come first served within a priority. -/
namespace GraphEngine.Executor
open GraphEngine.Lib Function List Countdown

/-- What the builder reads of a flat execute graph. Edges that were removed leave null entries behind. -/
structure ExecuteGraph (n : Nat) where
  directNode : List (Fin n)
  priority : Fin n → Option Int
  allOutDataEdges : Fin n → List (List (Option (Fin n)))
  allOutControlEdges : Fin n → List (Option (Fin n))
  allInEdgeSize : Fin n → Nat

/-- The local state of `ReadInNodesByPriority`, with the nodes read so far, newest first. -/
structure ReadState (n : Nat) where
  prioritiesToReadyNodes : Buckets (Fin n)
  seenNodes : List (Fin n)
  indegreeMap : Fin n → Option Nat
  read : List (Fin n)

section Builder
variable {n : Nat} (graph : ExecuteGraph n)

def nodePriority (node : Fin n) : Int := (graph.priority node).getD (2 ^ 63 - 1)

def pushToReadyQueue (node : Fin n) (s : ReadState n) : ReadState n :=
  if node ∈ s.seenNodes then s
  else {s with
    prioritiesToReadyNodes := s.prioritiesToReadyNodes.push (nodePriority graph node) node
    seenNodes := node :: s.seenNodes}

/-- `size_t` wraps below zero. -/
def decrement (count : Nat) : Nat := (count + (2 ^ 64 - 1)) % 2 ^ 64

def collectNodes (edge : Option (Fin n)) (s : ReadState n) : Option (ReadState n) :=
  match edge with
  | none => some s
  | some outNode =>
    match s.indegreeMap outNode with
    | none => none
    | some count =>
      let counted := {s with indegreeMap := Function.update s.indegreeMap outNode (some (decrement count))}
      if 0 < decrement count then some counted else some (pushToReadyQueue graph outNode counted)

def collectAll : List (Option (Fin n)) → ReadState n → Option (ReadState n)
  | [],s => some s
  | edge :: edges,s => (collectNodes graph edge s).bind (collectAll edges)

def enterNode (s : ReadState n) (node : Fin n) : ReadState n :=
  let entered := {s with indegreeMap := Function.update s.indegreeMap node (some (graph.allInEdgeSize node))}
  if graph.allInEdgeSize node = 0 then pushToReadyQueue graph node entered else entered

/-- The loop over the ready nodes; what `ReadInOneNode` answers may depend on the nodes read before. `none` when it or a
search fails, or when the fuel does not last. -/
def readLoop (readInOneNode : List (Fin n) → Fin n → Bool) : Nat → ReadState n → Option (ReadState n)
  | 0,_ => none
  | fuel + 1,s =>
    match s.prioritiesToReadyNodes.pop with
    | none => some s
    | some (node,rest) =>
      if readInOneNode s.read node then
        (collectAll graph ((graph.allOutDataEdges node).flatten ++ graph.allOutControlEdges node)
          {s with prioritiesToReadyNodes := rest, read := node :: s.read}).bind (readLoop readInOneNode fuel)
      else none

def readInNodesByPriority (readInOneNode : List (Fin n) → Fin n → Bool) : Option (List (Fin n)) :=
  (readLoop graph readInOneNode (n + 1) (graph.directNode.foldl (enterNode graph) ⟨[],[],fun _ => none,[]⟩)).map
    fun s => s.read.reverse

def targets (node : Fin n) : List (Fin n) :=
  ((graph.allOutDataEdges node).flatten ++ graph.allOutControlEdges node).reduceOption

structure FlatAcyclic : Prop where
  once : graph.directNode.Nodup
  all : ∀ node, node ∈ graph.directNode
  indegree : ∀ node, graph.allInEdgeSize node = ∑ source, (targets graph source).count node
  fits : ∀ node, graph.allInEdgeSize node < 2 ^ 64
  acyclic : ∀ node, ¬ Relation.TransGen (fun source target => target ∈ targets graph source) node node

def startNodes : List (Fin n) := graph.directNode.filter fun node => graph.allInEdgeSize node = 0

end Builder

section Refinement
variable {n : Nat} {graph : ExecuteGraph n} {s : ReadState n} {pace : Countdown.Pace (Fin n)} {done : List (Fin n)}
  {owed : Fin n → Nat}

def degree (graph : ExecuteGraph n) (node : Fin n) : Int := graph.allInEdgeSize node

structure Follows (graph : ExecuteGraph n) (done : List (Fin n)) (owed : Fin n → Nat) (s : ReadState n)
    (pace : Countdown.Pace (Fin n)) : Prop where
  queue : Buckets.Sorts (nodePriority graph) s.prioritiesToReadyNodes pace.ready
  seen : ∀ node, node ∈ s.seenNodes ↔ node ∈ done ++ pace.ready
  counts : ∀ node ∉ done ++ pace.ready, s.indegreeMap node = some (owed node)
  known : ∀ node, (s.indegreeMap node).isSome
  read : s.read = done

theorem decrement_of_pos {count : Nat} (positive : 0 < count) (fits : count < 2 ^ 64) : decrement count = count - 1 := by
  unfold decrement
  omega

theorem Follows.collect (follows : Follows graph done owed s pace)
    (kept : Countdown.Kept (degree graph) done owed pace) {node : Fin n} (more : 0 < owed node) (fits : owed node < 2 ^ 64) :
    ∃ s', collectNodes graph (some node) s = some s' ∧ Follows graph done (update owed node (owed node - 1)) s'
      (touch (stable (nodePriority graph)) (degree graph) pace node) := by
  have unready := kept.unready more
  have left := (kept.waiting node unready).2
  have count := follows.counts node unready
  have unseen : node ∉ s.seenNodes := fun seen => unready ((follows.seen node).mp seen)
  have known : ∀ other, ((update s.indegreeMap node (some (owed node - 1))) other).isSome := by
    intro other
    by_cases here : other = node
    · subst here
      simp
    · simpa [here] using follows.known other
  simp only [collectNodes,count,decrement_of_pos more fits,touch]
  by_cases last : owed node - 1 = 0
  · rw [if_neg (by omega),if_pos (by omega),pushToReadyQueue,if_neg unseen]
    refine ⟨_,rfl,follows.queue.push node,?_,?_,known,follows.read⟩
    · intro other
      simp only [mem_cons,follows.seen,stable,mem_append,not_mem_nil,or_false]
      tauto
    · intro other absent
      have away : other ≠ node := by
        rintro rfl
        exact absent (by simp [stable])
      have before : other ∉ done ++ pace.ready := fun member => absent (by
        simp only [stable,mem_append,mem_singleton] at member ⊢
        tauto)
      simpa [away] using follows.counts other before
  · rw [if_pos (by omega),if_neg (by omega)]
    refine ⟨_,rfl,follows.queue,follows.seen,?_,known,follows.read⟩
    intro other absent
    by_cases here : other = node
    · subst here
      simp
    · simpa [here] using follows.counts other absent

theorem Follows.collectAll {edges : List (Option (Fin n))}
    (follows : Follows graph done (fun i => owed i + edges.reduceOption.count i) s pace)
    (kept : Countdown.Kept (degree graph) done (fun i => owed i + edges.reduceOption.count i) pace)
    (fits : ∀ i, owed i + edges.reduceOption.count i < 2 ^ 64) :
    ∃ s', collectAll graph edges s = some s' ∧ Follows graph done owed s'
      (settle (stable (nodePriority graph)) (degree graph) pace edges.reduceOption) := by
  induction edges generalizing s pace with
  | nil =>
    refine ⟨s,rfl,?_⟩
    simpa [settle] using follows
  | cons edge edges ih =>
    cases edge with
    | none =>
      rw [reduceOption_cons_of_none] at follows kept fits ⊢
      exact ih follows kept fits
    | some node =>
      rw [reduceOption_cons_of_some] at follows kept fits ⊢
      have more : 0 < owed node + (node :: edges.reduceOption).count node := Nat.add_pos_right _ (by simp)
      obtain ⟨s₁,done₁,follows₁⟩ := follows.collect kept more (fits node)
      have same : update (fun i => owed i + (node :: edges.reduceOption).count i) node
          (owed node + (node :: edges.reduceOption).count node - 1) = fun i => owed i + edges.reduceOption.count i := by
        funext i
        by_cases here : i = node
        · subst here
          simp
        · simp [here,count_cons_of_ne (Ne.symm here)]
      rw [same] at follows₁
      have after : Countdown.Kept (degree graph) done (fun i => owed i + edges.reduceOption.count i)
          (touch (stable (nodePriority graph)) (degree graph) pace node) := kept.first.2
      have fewer : ∀ i, owed i + edges.reduceOption.count i < 2 ^ 64 := by
        intro i
        exact lt_of_le_of_lt (Nat.add_le_add_left count_le_count_cons _) (fits i)
      obtain ⟨s',rest,follows'⟩ := ih follows₁ after fewer
      refine ⟨s',?_,follows'⟩
      rw [collectAll,done₁]
      exact rest

end Refinement

section Start
variable {n : Nat} {graph : ExecuteGraph n} {s : ReadState n}

structure Entered (graph : ExecuteGraph n) (before : List (Fin n)) (s : ReadState n) : Prop where
  queue : Buckets.Sorts (nodePriority graph) s.prioritiesToReadyNodes (before.filter fun node => graph.allInEdgeSize node = 0)
  seen : ∀ node, node ∈ s.seenNodes ↔ node ∈ before.filter fun node => graph.allInEdgeSize node = 0
  counts : ∀ node ∈ before, s.indegreeMap node = some (graph.allInEdgeSize node)
  read : s.read = []

theorem Entered.step {before : List (Fin n)} (entered : Entered graph before s) {node : Fin n} (fresh : node ∉ before) :
    Entered graph (before ++ [node]) (enterNode graph s node) := by
  have counts : ∀ other ∈ before ++ [node], update s.indegreeMap node (some (graph.allInEdgeSize node)) other =
      some (graph.allInEdgeSize other) := by
    intro other member
    by_cases here : other = node
    · subst here
      simp
    · rw [update_of_ne here]
      exact entered.counts other (by simpa [here] using member)
  unfold enterNode
  by_cases free : graph.allInEdgeSize node = 0
  · have unseen : node ∉ s.seenNodes := fun seen => fresh (mem_of_mem_filter ((entered.seen node).mp seen))
    have longer : (before ++ [node]).filter (fun node => graph.allInEdgeSize node = 0) =
        before.filter (fun node => graph.allInEdgeSize node = 0) ++ [node] := by
      simp [free]
    simp only [free,if_true,pushToReadyQueue,unseen,if_false]
    rw [free] at counts
    refine ⟨?_,?_,counts,entered.read⟩
    · rw [longer]
      exact entered.queue.push node
    · intro other
      rw [longer,mem_cons,entered.seen,mem_append,mem_singleton,or_comm]
  · have same : (before ++ [node]).filter (fun node => graph.allInEdgeSize node = 0) =
        before.filter fun node => graph.allInEdgeSize node = 0 := by
      simp [free]
    simp only [free,if_false]
    exact ⟨same ▸ entered.queue,fun other => same ▸ entered.seen other,counts,entered.read⟩

theorem Entered.foldl {before nodes : List (Fin n)} (entered : Entered graph before s) (once : (before ++ nodes).Nodup) :
    Entered graph (before ++ nodes) (nodes.foldl (enterNode graph) s) := by
  induction nodes generalizing before s with
  | nil => simpa using entered
  | cons node nodes ih =>
    rw [append_cons] at once ⊢
    have fresh : node ∉ before := fun member =>
      (nodup_append.mp once.of_append_left).2.2 node member node (by simp) rfl
    exact ih (entered.step fresh) once

theorem stable_enqueueAll {α : Type} [DecidableEq α] (rank : α → Int) (items more : List α) :
    (stable rank).enqueueAll items more = items ++ more := by
  induction more generalizing items with
  | nil => simp [Discipline.enqueueAll]
  | cons item more ih =>
    rw [Discipline.enqueueAll,ih]
    simp [stable]

theorem kept_startNodes (flat : FlatAcyclic graph) : Countdown.Kept (degree graph) []
    (outstanding (targets graph) []) ⟨startNodes graph,degree graph⟩ := by
  have degrees : ∀ i, degree graph i = (∑ j, (targets graph j).count i : Nat) := fun i => by rw [degree,flat.indegree]
  have starts : ∀ i, i ∈ startNodes graph ↔ degree graph i = 0 := fun i => by simp [startNodes,degree,flat.all]
  have kept := kept_start (stable (nodePriority graph)) degrees starts (flat.once.filter _)
  rwa [stable_enqueueAll,nil_append] at kept

theorem follows_startNodes (flat : FlatAcyclic graph) : Follows graph [] (outstanding (targets graph) [])
    (graph.directNode.foldl (enterNode graph) ⟨[],[],fun _ => none,[]⟩) ⟨startNodes graph,degree graph⟩ := by
  have empty : Entered graph [] ⟨[],[],fun _ => none,[]⟩ := ⟨Buckets.sorts_nil _,by simp,by simp,rfl⟩
  have entered := empty.foldl (by simpa using flat.once)
  rw [nil_append] at entered
  refine ⟨entered.queue,fun node => by rw [entered.seen]; rfl,?_,?_,entered.read⟩
  · intro node _
    have start : outstanding (targets graph) [] node = graph.allInEdgeSize node := by
      simp [flat.indegree,outstanding]
    rw [start]
    exact entered.counts node (flat.all node)
  · intro node
    rw [entered.counts node (flat.all node)]
    rfl

end Start

section Loop
variable {n : Nat} {graph : ExecuteGraph n} (readInOneNode : List (Fin n) → Fin n → Bool)

def acceptsAll : List (Fin n) → List (Fin n) → Bool
  | _,[] => true
  | older,node :: nodes => readInOneNode older node && acceptsAll (node :: older) nodes

theorem readLoop_spec (flat : FlatAcyclic graph) {fuel : Nat} {s : ReadState n} {pace : Countdown.Pace (Fin n)}
    {done : List (Fin n)} (enough : n ≤ done.length + fuel)
    (follows : Follows graph done (outstanding (targets graph) done) s pace)
    (kept : Countdown.Kept (degree graph) done (outstanding (targets graph) done) pace) :
    (readLoop graph readInOneNode (fuel + 1) s).map ReadState.read =
      if acceptsAll readInOneNode done (visit (stable (nodePriority graph)) (degree graph) (targets graph) fuel pace) then
        some ((visit (stable (nodePriority graph)) (degree graph) (targets graph) fuel pace).reverse ++ done)
      else none := by
  induction fuel generalizing s pace done with
  | zero =>
    have bound := kept.length_le
    rw [Fintype.card_fin] at bound
    have empty : pace.ready = [] := length_eq_zero_iff.mp (by omega)
    rcases follows.queue.pop with ⟨none_,_⟩ | ⟨item,_,_,taken,_⟩
    · simp [readLoop,none_,visit,acceptsAll,follows.read]
    · rw [empty] at taken
      cases taken
  | succ fuel ih =>
    rw [readLoop]
    rcases follows.queue.pop with ⟨none_,empty⟩ | ⟨node,rest,popped,taken,sorts⟩
    · rw [none_,visit,empty,Discipline.dequeue_nil]
      simp [acceptsAll,follows.read]
    · rw [popped,visit,taken]
      dsimp only
      rw [acceptsAll,follows.read]
      cases readInOneNode done node with
      | false => simp
      | true =>
        obtain ⟨_,after⟩ := kept.next taken
        have fresh : node ∉ done := (nodup_cons.mp (after.once.of_append_left)).1
        have popped' : Follows graph (node :: done)
            (fun i => outstanding (targets graph) (node :: done) i + (targets graph node).count i)
            {s with prioritiesToReadyNodes := rest, read := node :: done} ⟨pace.ready.erase node,pace.left⟩ := by
          have members : ∀ i, i ∈ node :: done ++ pace.ready.erase node ↔ i ∈ done ++ pace.ready := by
            intro i
            exact (((stable (nodePriority graph)).dequeue_perm taken).append_left done |>.trans perm_middle).mem_iff.symm
          refine ⟨sorts,fun i => by rw [members]; exact follows.seen i,fun i absent => ?_,follows.known,rfl⟩
          rw [members] at absent
          rw [← outstanding_cons fresh]
          exact follows.counts i absent
        obtain ⟨s',collected,follows'⟩ := popped'.collectAll after (fun i => by
          change outstanding (targets graph) (node :: done) i + (targets graph node).count i < 2 ^ 64
          rw [← outstanding_cons fresh]
          apply lt_of_le_of_lt _ (flat.fits i)
          rw [flat.indegree,outstanding]
          exact Finset.sum_le_sum_of_subset (Finset.filter_subset _ _))
        rw [if_pos rfl,Bool.true_and,collected,Option.bind_some]
        have rest_ := ih (by rw [length_cons]; omega) follows' after.settle
        rw [rest_,reverse_cons,append_assoc]
        rfl

end Loop

def readOrder {n : Nat} (graph : ExecuteGraph n) : List (Fin n) :=
  Countdown.visit (stable (nodePriority graph)) (degree graph) (targets graph) n ⟨startNodes graph,degree graph⟩

/-- Every node is read once, after its predecessors, of least priority among the ready ones and the first of its priority to
become ready; what reading does can only stop this. -/
theorem sequential_order {n : Nat} (graph : ExecuteGraph n) (flat : FlatAcyclic graph) : ∃ nodes : List (Fin n),
    nodes.Nodup ∧ (∀ node, node ∈ nodes) ∧
    (∀ readInOneNode, readInNodesByPriority graph readInOneNode =
      if acceptsAll readInOneNode [] nodes then some nodes else none) ∧
    ∀ older node newer, nodes = older ++ node :: newer →
      InTurn (nodePriority graph) (targets graph) (startNodes graph) older.reverse node := by
  have kept := kept_startNodes flat
  have follows := follows_startNodes flat
  have enough : n ≤ ([] : List (Fin n)).length + n := by simp
  have arrived : startNodes graph = (arrivals (targets graph) (startNodes graph) []).filter fun i => decide (i ∉ []) := by
    simp [arrivals]
  have turns : AllInTurn (nodePriority graph) (targets graph) (startNodes graph) _ := visit_inTurn n kept arrived trivial
  have visited : (readOrder graph).reverse.Nodup ∧ Countdown.Sequenced (targets graph) (readOrder graph).reverse ∧
      ∀ i, i ∈ (readOrder graph).reverse := by
    simpa [readOrder] using kept.visit flat.acyclic n (by simp) trivial
  obtain ⟨once,_,all⟩ := visited
  simp only [append_nil,nodup_reverse,mem_reverse] at once all turns
  refine ⟨readOrder graph,once,all,?_,?_⟩
  · intro readInOneNode
    have loop := readLoop_spec readInOneNode flat enough follows kept
    rw [append_nil] at loop
    rw [readInNodesByPriority,show (fun s : ReadState n => s.read.reverse) = List.reverse ∘ ReadState.read from rfl,
      ← Option.map_map,loop,readOrder]
    split
    · rw [Option.map_some,reverse_reverse]
    · rfl
  · intro older node newer split_
    rw [readOrder] at split_
    rw [split_,reverse_append,reverse_cons,append_assoc] at turns
    exact turns.turn

/-- Two inputs of one priority, a node behind both and one behind the first; a removed edge has left a null entry. -/
def fork : ExecuteGraph 4 where
  directNode := finRange 4
  priority := ![some 5,some 5,some 1,none]
  allOutDataEdges := ![[[(finRange 4)[2]?,none,(finRange 4)[3]?]],[[(finRange 4)[2]?]],[],[]]
  allOutControlEdges _ := []
  allInEdgeSize := ![0,0,2,1]

theorem sequential_order_fork : FlatAcyclic fork ∧ ∃ nodes : List (Fin 4), nodes.Nodup ∧ (∀ node, node ∈ nodes) ∧
    (∀ readInOneNode, readInNodesByPriority fork readInOneNode = if acceptsAll readInOneNode [] nodes then some nodes else none) ∧
    ∀ older node newer, nodes = older ++ node :: newer →
      InTurn (nodePriority fork) (targets fork) (startNodes fork) older.reverse node := by
  have flat : FlatAcyclic fork := ⟨by decide,by decide,by decide,by decide,acyclic_of_rank (·.val) (by decide)⟩
  exact ⟨flat,sequential_order fork flat⟩

example : readInNodesByPriority fork (fun _ _ => true) = some [0,1,2,3] := by decide

end GraphEngine.Executor
