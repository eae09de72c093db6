import GraphEngine.Lib.Precedence
import GraphEngine.Prefetch.BufferPoolMemory

/-! The groups of prefetch nodes: each one is a chain in which every node feeds the next one and the last one feeds
the calculation node, and no prefetch node is in two of them. -/

namespace GraphEngine.Prefetch
open Lib Function List Option
variable {Node : Type} {graph : Graph Node} {pool : BufferPool Node}

def Feeds (pool : BufferPool Node) : List Node → Node → Prop
  | [],_ => True
  | node :: nodes,target => pool.bufferNodeToCalc node = some (nodes.headD target) ∧ Feeds pool nodes target

variable {target : Node}

theorem feeds_snoc {nodes : List Node} {last : Node} :
    Feeds pool (nodes ++ [last]) target ↔ Feeds pool nodes last ∧ pool.bufferNodeToCalc last = some target := by
  induction nodes with
  | nil => simp [Feeds]
  | cons node nodes ih =>
    cases nodes with
    | nil => simp [Feeds]
    | cons next nodes =>
      simp only [cons_append,Feeds,headD_cons] at ih ⊢
      rw [ih]
      tauto

theorem Feeds.suffix {front back : List Node} (feeds : Feeds pool (front ++ back) target) : Feeds pool back target := by
  induction front with
  | nil => exact feeds
  | cons node front ih => exact ih feeds.2

/-- The list of calculation nodes and the prefetch inputs of each of them, as the pass collects them. Every prefetch
node has one reader. -/
structure Collected (graph : Graph Node) (pool : BufferPool Node) (calcNodes : List Node)
    (bufferNodeItems : Node → List Node) : Prop where
  calcNodup : calcNodes.Nodup
  inputsNodup : ∀ calcNode ∈ calcNodes, (bufferNodeItems calcNode).Nodup
  buffer : ∀ calcNode ∈ calcNodes, ∀ input ∈ bufferNodeItems calcNode, graph.isBufferNode input = true
  reader : ∀ calcNode ∈ calcNodes, ∀ input ∈ bufferNodeItems calcNode, pool.bufferNodeToCalc input = some calcNode

structure IsGroup (graph : Graph Node) (pool : BufferPool Node) (calcNode : Node) (group : List Node) : Prop where
  feeds : Feeds pool group calcNode
  buffer : ∀ node ∈ group, graph.isBufferNode node = true
  nonempty : group ≠ []

section Chains
variable {calcNode calcNode' x : Node} {front back front' back' : List Node}

theorem rest_unique (plain : graph.isBufferNode calcNode = false) (plain' : graph.isBufferNode calcNode' = false)
    (feeds : Feeds pool (x :: back) calcNode) (feeds' : Feeds pool (x :: back') calcNode')
    (buffer : ∀ node ∈ back, graph.isBufferNode node = true) (buffer' : ∀ node ∈ back', graph.isBufferNode node = true) :
    back = back' ∧ calcNode = calcNode' := by
  induction back generalizing x back' with
  | nil =>
    cases back' with
    | nil =>
      have same := feeds.1.symm.trans feeds'.1
      exact ⟨rfl,some.inj same⟩
    | cons y back' =>
      have same : calcNode = y := some.inj (feeds.1.symm.trans feeds'.1)
      rw [same,buffer' y (.head _)] at plain
      cases plain
  | cons y back ih =>
    cases back' with
    | nil =>
      have same : y = calcNode' := some.inj (feeds.1.symm.trans feeds'.1)
      rw [← same,buffer y (.head _)] at plain'
      cases plain'
    | cons z back' =>
      obtain rfl : y = z := some.inj (feeds.1.symm.trans feeds'.1)
      obtain ⟨rfl,same⟩ := ih feeds.2 feeds'.2 (fun node inside => buffer node (.tail _ inside))
        (fun node inside => buffer' node (.tail _ inside))
      exact ⟨rfl,same⟩

variable {group group' : List Node}

theorem feeds_nodup (plain : graph.isBufferNode calcNode = false) (feeds : Feeds pool group calcNode)
    (buffer : ∀ node ∈ group, graph.isBufferNode node = true) : group.Nodup := by
  induction group with
  | nil => exact .nil
  | cons x rest ih =>
    have restBuffer : ∀ node ∈ rest, graph.isBufferNode node = true := fun node inside => buffer node (.tail _ inside)
    refine nodup_cons.mpr ⟨?_,ih feeds.2 restBuffer⟩
    intro again
    obtain ⟨front,back,rfl⟩ := append_of_mem again
    have shorter := (rest_unique plain plain feeds feeds.2.suffix restBuffer
      (fun node inside => restBuffer node (by simp [inside]))).1
    have lengths := congrArg length shorter
    simp at lengths
    omega

theorem IsGroup.disjoint (isGroup : IsGroup graph pool calcNode group)
    (isGroup' : IsGroup graph pool calcNode' group') (plain : graph.isBufferNode calcNode = false)
    (plain' : graph.isBufferNode calcNode' = false)
    (different : calcNode ≠ calcNode' ∨ group.getLast? ≠ group'.getLast?) : List.Disjoint group group' := by
  intro x inside inside'
  obtain ⟨front,back,rfl⟩ := append_of_mem inside
  obtain ⟨front',back',rfl⟩ := append_of_mem inside'
  obtain ⟨rfl,same⟩ := rest_unique plain plain' isGroup.feeds.suffix isGroup'.feeds.suffix
    (fun node later => isGroup.buffer node (by simp [later])) fun node later => isGroup'.buffer node (by simp [later])
  rcases different with other | other
  · exact other same
  · simp [getLast?_append,getLast?_cons] at other

end Chains

def fedPairs (calcNodes : List Node) (bufferNodeItems : Node → List Node) : List (Node × Node) :=
  calcNodes.flatMap fun calcNode => (bufferNodeItems calcNode).map fun input => (calcNode,input)

section Loops
variable [DecidableEq Node]

/-- What the grouping has built once some inputs are done: the chain in front of every prefetch node to come, and one group
for each input. -/
structure Grouped (graph : Graph Node) (pool : BufferPool Node) (done : List (Node × Node)) (grouping : Grouping Node) :
    Prop where
  parents : ∀ input, input ∉ done.map Prod.snd → ∀ chain, grouping.allParentBufferNodeItems input = some chain →
    Feeds pool chain input ∧ ∀ node ∈ chain, graph.isBufferNode node = true
  groups : ∀ calcNode, ∀ group ∈ grouping.peerBufferNodeItems calcNode, IsGroup graph pool calcNode group
  lasts : ∀ calcNode, (grouping.peerBufferNodeItems calcNode).filterMap List.getLast? =
    ((done.filter (fun entry => decide (entry.1 = calcNode) && !graph.isBufferNode entry.1)).map Prod.snd)

variable {done : List (Node × Node)} {grouping : Grouping Node} {calcNode : Node}

theorem groupInput_grouped {input : Node} (grouped : Grouped graph pool done grouping) (fresh : input ∉ done.map Prod.snd)
    (buffer : graph.isBufferNode input = true) (reader : pool.bufferNodeToCalc input = some calcNode) :
    Grouped graph pool (done ++ [(calcNode,input)]) (groupInput graph calcNode input grouping) := by
  have chain : Feeds pool ((grouping.allParentBufferNodeItems input).getD [] ++ [input]) calcNode ∧
      ∀ node ∈ (grouping.allParentBufferNodeItems input).getD [] ++ [input], graph.isBufferNode node = true := by
    have front : Feeds pool ((grouping.allParentBufferNodeItems input).getD []) input ∧
        ∀ node ∈ (grouping.allParentBufferNodeItems input).getD [], graph.isBufferNode node = true := by
      cases entry : grouping.allParentBufferNodeItems input with
      | none => exact ⟨trivial,by simp⟩
      | some chain => exact grouped.parents input fresh chain entry
    exact ⟨feeds_snoc.mpr ⟨front.1,reader⟩,forall_mem_append.mpr ⟨front.2,forall_mem_singleton.mpr buffer⟩⟩
  have parents : ∀ other, other ∉ (done ++ [(calcNode,input)]).map Prod.snd → ∀ chain,
      update grouping.allParentBufferNodeItems input
        (some ((grouping.allParentBufferNodeItems input).getD [] ++ [input])) other = some chain →
      Feeds pool chain other ∧ ∀ node ∈ chain, graph.isBufferNode node = true := by
    intro other later chain entry
    rw [map_append,mem_append,not_or] at later
    have ne : other ≠ input := by simpa using later.2
    rw [update_of_ne ne] at entry
    exact grouped.parents other later.1 chain entry
  unfold groupInput
  cases kind : graph.isBufferNode calcNode with
  | true =>
    simp only [if_true]
    refine ⟨?_,grouped.groups,?_⟩
    · intro other later chain' entry
      dsimp only at entry
      split at entry
      · exact parents other later chain' entry
      · by_cases same : other = calcNode
        · subst same
          rw [update_self] at entry
          cases entry
          exact chain
        · rw [update_of_ne same] at entry
          exact parents other later chain' entry
    · intro target
      rw [grouped.lasts target,filter_append]
      simp [kind]
  | false =>
    simp only [Bool.false_eq_true,if_false]
    refine ⟨parents,?_,?_⟩
    · intro target group inside
      dsimp only at inside
      by_cases same : target = calcNode
      · subst same
        rw [update_self] at inside
        rcases mem_append.mp inside with inside | inside
        · exact grouped.groups target group inside
        · rw [mem_singleton.mp inside]
          exact ⟨chain.1,chain.2,by simp⟩
      · rw [update_of_ne same] at inside
        exact grouped.groups target group inside
    · intro target
      dsimp only
      by_cases same : target = calcNode
      · subst same
        simp [grouped.lasts target,filter_append,kind]
      · rw [update_of_ne same,grouped.lasts target,filter_append]
        simp [Ne.symm same]

theorem groupInputs_grouped {inputs : List Node} (grouped : Grouped graph pool done grouping) (nodup : inputs.Nodup)
    (fresh : ∀ input ∈ inputs, input ∉ done.map Prod.snd) (buffer : ∀ input ∈ inputs, graph.isBufferNode input = true)
    (reader : ∀ input ∈ inputs, pool.bufferNodeToCalc input = some calcNode) :
    Grouped graph pool (done ++ inputs.map fun input => (calcNode,input))
      (inputs.foldl (fun grouping input => groupInput graph calcNode input grouping) grouping) := by
  induction inputs generalizing done grouping with
  | nil => simpa using grouped
  | cons input inputs ih =>
    obtain ⟨absent,nodup⟩ := nodup_cons.mp nodup
    have step := groupInput_grouped grouped (fresh input (.head _)) (buffer input (.head _)) (reader input (.head _))
    have run := ih step nodup ?_ (fun other inside => buffer other (.tail _ inside))
      (fun other inside => reader other (.tail _ inside))
    · rw [append_assoc] at run
      exact run
    · intro other inside known
      rw [map_append,mem_append] at known
      rcases known with known | known
      · exact fresh other (.tail _ inside) known
      · have same : other = input := by simpa using known
        exact absent (same ▸ inside)

theorem groupCalcNodes_grouped {bufferNodeItems : Node → List Node} {before calcNodes : List Node}
    (collected : Collected graph pool (before ++ calcNodes) bufferNodeItems)
    (grouped : Grouped graph pool (fedPairs before bufferNodeItems) grouping) :
    Grouped graph pool (fedPairs (before ++ calcNodes) bufferNodeItems)
      (calcNodes.foldl (groupCalcNode graph bufferNodeItems) grouping) := by
  induction calcNodes generalizing before grouping with
  | nil => simpa using grouped
  | cons calcNode calcNodes ih =>
    have known : calcNode ∈ before ++ calcNode :: calcNodes := by simp
    have step := groupInputs_grouped grouped (collected.inputsNodup calcNode known) ?_
      (collected.buffer calcNode known) (collected.reader calcNode known)
    · have shape : fedPairs before bufferNodeItems ++ (bufferNodeItems calcNode).map (fun input => (calcNode,input)) =
          fedPairs (before ++ [calcNode]) bufferNodeItems := by simp [fedPairs]
      rw [shape] at step
      have split : before ++ calcNode :: calcNodes = (before ++ [calcNode]) ++ calcNodes := by simp
      rw [split] at collected ⊢
      exact ih collected step
    · -- a node that was an input before has another reader
      intro input inside done
      obtain ⟨⟨other,input⟩,pair,rfl⟩ := mem_map.mp done
      obtain ⟨early,fed⟩ : other ∈ before ∧ input ∈ bufferNodeItems other := by simpa [fedPairs] using pair
      have same : other = calcNode := some.inj ((collected.reader other (by simp [early]) _ fed).symm.trans
        (collected.reader calcNode known _ inside))
      subst same
      have nodup := collected.calcNodup
      rw [nodup_append] at nodup
      exact nodup.2.2 other early other (.head _) rfl

variable {calcNodes : List Node} {bufferNodeItems : Node → List Node}
  (collected : Collected graph pool calcNodes bufferNodeItems)
include collected

theorem doGroup_grouped : Grouped graph pool (fedPairs calcNodes bufferNodeItems)
      (calcNodes.foldl (groupCalcNode graph bufferNodeItems) ⟨fun _ => none,fun _ => []⟩) := by
  have start : Grouped graph pool (fedPairs [] bufferNodeItems) ⟨fun _ => none,fun _ => []⟩ := by
    refine ⟨?_,?_,fun _ => rfl⟩
    · intro input later chain entry
      cases entry
    · intro calcNode group inside
      cases inside
  have all : Collected graph pool ([] ++ calcNodes) bufferNodeItems := collected
  exact groupCalcNodes_grouped all start

theorem doGroup_isGroup (calcNode : Node) (group : List Node)
    (inside : group ∈ (doGroupBufferPoolNodes graph calcNodes bufferNodeItems).2 calcNode) :
    IsGroup graph pool calcNode group := (doGroup_grouped collected).groups calcNode group inside

theorem doGroup_lasts (calcNode : Node) :
    (((doGroupBufferPoolNodes graph calcNodes bufferNodeItems).2 calcNode).filterMap getLast?).Nodup := by
  rw [show ((doGroupBufferPoolNodes graph calcNodes bufferNodeItems).2 calcNode).filterMap getLast? = _ from
    (doGroup_grouped collected).lasts calcNode]
  refine List.Nodup.map_on ?_ (List.Nodup.filter _ ?_)
  · intro p first q second same
    have left : p.1 = calcNode ∧ graph.isBufferNode p.1 = false := by simpa using (mem_filter.mp first).2
    have right : q.1 = calcNode ∧ graph.isBufferNode q.1 = false := by simpa using (mem_filter.mp second).2
    exact Prod.ext (left.1.trans right.1.symm) same
  · refine nodup_flatMap.mpr ⟨?_,?_⟩
    · intro reader known
      exact (collected.inputsNodup reader known).map (fun _ _ same => (Prod.mk.inj same).2)
    · refine List.Pairwise.imp ?_ collected.calcNodup
      intro p q different pair left right
      obtain ⟨x,-,rfl⟩ := mem_map.mp left
      obtain ⟨y,-,same⟩ := mem_map.mp right
      exact different (Prod.mk.inj same).1.symm

def placeOrder (calcNodes : List Node) (peerBufferNodeItems : Node → List (List Node)) : List Node :=
  calcNodes.flatMap fun calcNode => (peerBufferNodeItems calcNode).flatten

theorem doGroup_nodup : (placeOrder (doGroupBufferPoolNodes graph calcNodes bufferNodeItems).1
      (doGroupBufferPoolNodes graph calcNodes bufferNodeItems).2).Nodup := by
  have plain : ∀ calcNode ∈ (doGroupBufferPoolNodes graph calcNodes bufferNodeItems).1,
      graph.isBufferNode calcNode = false := by
    intro calcNode known
    simpa using (mem_filter.mp known).2
  refine nodup_flatMap.mpr ⟨?_,?_⟩
  · intro calcNode known
    refine nodup_flatten.mpr ⟨?_,?_⟩
    · intro group inside
      have isGroup := doGroup_isGroup collected calcNode group inside
      exact feeds_nodup (plain calcNode known) isGroup.feeds isGroup.buffer
    · have lasts := pairwise_filterMap.mp (doGroup_lasts collected calcNode)
      refine List.Pairwise.imp_of_mem ?_ lasts
      intro group group' inside inside' different
      have isGroup := doGroup_isGroup collected calcNode group inside
      have isGroup' := doGroup_isGroup collected calcNode group' inside'
      refine isGroup.disjoint isGroup' (plain calcNode known) (plain calcNode known) (.inr ?_)
      intro same
      have last := getLast?_eq_some_getLast isGroup.nonempty
      exact different _ last _ (same ▸ last) rfl
  · have nodup : (doGroupBufferPoolNodes graph calcNodes bufferNodeItems).1.Nodup := collected.calcNodup.filter _
    refine List.Pairwise.imp_of_mem ?_ nodup
    intro p q left right different x inP inQ
    obtain ⟨group,known,inside⟩ := mem_flatten.mp inP
    obtain ⟨group',known',inside'⟩ := mem_flatten.mp inQ
    exact (doGroup_isGroup collected p group known).disjoint (doGroup_isGroup collected q group' known') (plain p left)
      (plain q right) (.inl different) inside inside'

end Loops
end GraphEngine.Prefetch
