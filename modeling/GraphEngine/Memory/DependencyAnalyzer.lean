import Mathlib.Data.Fintype.Card
import GraphEngine.Fusion.LargeBitmap

/-! The memory reuse checker: which nodes a node reaches, over graph edges and along its stream, and which outputs may
take over the memory of another. Nodes are named by their topological ids, which `InitTables` has checked. -/
namespace GraphEngine.Memory.DependencyAnalyzer

open Function List Finset

open Fusion (LargeBitmap)
open Relation (TransGen)

variable {n : Nat}

def kInvalidStreamId : Int := -1

/-- An output data anchor has the owners of its input data anchors and those of its input control anchors. The input side has
the owners of the output anchors of its own kind. -/
structure CheckedGraph (n : Nat) where
  allNodes : List (Fin n)
  complete : ∀ node, node ∈ allNodes
  outDataAnchors : Fin n → List (List (Fin n) × List (Fin n))
  outControlAnchor : Fin n → List (Fin n)
  inDataAnchors : Fin n → List (Option (Fin n))
  inControlAnchor : Fin n → List (Fin n)
  stream : Fin n → Int
  isNetOutput : Fin n → Bool

section Tables
variable (g : CheckedGraph n)

def getOutNodesPtr (node : Fin n) : List (Fin n) :=
  (g.outDataAnchors node).flatMap Prod.fst ++ g.outControlAnchor node

def getInNodesPtr (node : Fin n) : List (Fin n) :=
  (g.inDataAnchors node).filterMap id ++ g.inControlAnchor node

structure StreamTables (n : Nat) where
  preNode : Fin n → Option (Fin n)
  nextNode : Fin n → Option (Fin n)
  lastNode : Int → Option (Fin n)

def linkNode (tables : StreamTables n) (id : Fin n) : StreamTables n :=
  if g.stream id = kInvalidStreamId then tables
  else
    let lastNode := Function.update tables.lastNode (g.stream id) (some id)
    match tables.lastNode (g.stream id) with
    | none => { tables with lastNode := lastNode }
    | some last => ⟨Function.update tables.preNode id (some last),Function.update tables.nextNode last (some id),lastNode⟩

def initPreAndNextNodeOnSameStreamTable : StreamTables n :=
  (List.finRange n).foldl (linkNode g) ⟨fun _ => none,fun _ => none,fun _ => none⟩

def nextNodes (node : Fin n) : List (Fin n) :=
  getOutNodesPtr g node ++ ((initPreAndNextNodeOnSameStreamTable g).nextNode node).toList

def pushNextNode (node : Fin n) (stack : List (Fin n)) : List (Fin n) :=
  (nextNodes g node).reverse ++ stack

def pushPreNode (node : Fin n) (stack : List (Fin n)) : List (Fin n) :=
  (getInNodesPtr g node ++ ((initPreAndNextNodeOnSameStreamTable g).preNode node).toList).reverse ++ stack

end Tables

def pushNotVisited (visited : Finset (Fin n)) (stack : List (Fin n)) : List (Fin n) :=
  match (List.finRange n).reverse.find? (· ∉ visited) with
  | some node => node :: stack
  | none => stack

variable {visited : Finset (Fin n)} {node : Fin n} {g : CheckedGraph n} {ids : List (Fin n)} {bits : LargeBitmap}
  {reach : Fin n → LargeBitmap} {stack : List (Fin n)} {a : Fin n} {aOutputIndex : Nat}

theorem unvisited_lt (fresh : node ∉ visited) : n - (insert node visited).card < n - visited.card := by
  have bound := card_lt_univ_of_notMem fresh
  rw [Fintype.card_fin] at bound
  rw [card_insert_of_notMem fresh]
  omega

theorem countP_pushNotVisited (visited : Finset (Fin n)) (stack : List (Fin n)) :
    (pushNotVisited visited stack).countP (· ∈ visited) = stack.countP (· ∈ visited) := by
  rw [pushNotVisited]
  split
  · rename_i node found
    have fresh : node ∉ visited := by simpa using find?_some found
    exact countP_cons_of_neg (by simpa using fresh)
  · rfl

/-- The search from one node: the result is spliced in where a node has been searched already. -/
def searchFrom (g : CheckedGraph n) (searched : Finset (Fin n)) (reach : Fin n → LargeBitmap) (visited : Finset (Fin n))
    (stack : List (Fin n)) (bits : LargeBitmap) : LargeBitmap :=
  match stack with
  | [] => bits
  | node :: rest =>
    if _ : node ∈ visited then searchFrom g searched reach visited rest bits
    else if node ∈ searched then
      searchFrom g searched reach (insert node visited) rest ((bits.setBit node).or (reach node))
    else searchFrom g searched reach (insert node visited) (pushNextNode g node rest) (bits.setBit node)
termination_by (n - visited.card,stack.length)
decreasing_by
  · exact Prod.Lex.right _ (Nat.lt_succ_self _)
  all_goals exact Prod.Lex.left _ _ (unvisited_lt ‹_›)

/-- The outer search. Between two rounds the visited nodes are those that have been searched. -/
def reachLoop (g : CheckedGraph n) (visited : Finset (Fin n)) (stack : List (Fin n)) (reach : Fin n → LargeBitmap) :
    Fin n → LargeBitmap :=
  match stack with
  | [] => reach
  | node :: rest =>
    if _ : node ∈ visited then
      if rest = [] then reachLoop g visited (pushNotVisited visited rest) reach else reachLoop g visited rest reach
    else
      let found := searchFrom g visited reach ∅ (pushNextNode g node []) (reach node)
      let before := pushPreNode g node rest
      let now := insert node visited
      reachLoop g now (if before = [] then pushNotVisited now before else before) (Function.update reach node found)
termination_by (n - visited.card,stack.countP (· ∈ visited))
decreasing_by
  · rw [countP_pushNotVisited,List.countP_cons_of_pos (by simpa)]
    exact Prod.Lex.right _ (Nat.lt_succ_self _)
  · rw [List.countP_cons_of_pos (by simpa)]
    exact Prod.Lex.right _ (Nat.lt_succ_self _)
  · exact Prod.Lex.left _ _ (unvisited_lt ‹_›)

section Links
variable (g : CheckedGraph n)

def startNodes : List (Fin n) :=
  let outputs := (g.allNodes.filter g.isNetOutput).reverse
  if outputs = [] then g.allNodes.getLast?.toList else outputs

def initReachNodesMap : Fin n → LargeBitmap :=
  reachLoop g ∅ (startNodes g) fun _ => LargeBitmap.zero n

def NextOnStream (u v : Fin n) : Prop :=
  g.stream u ≠ kInvalidStreamId ∧ g.stream v = g.stream u ∧ u < v ∧ ∀ w, u < w → w < v → g.stream w ≠ g.stream u

/-- What the search follows. -/
def Followed (u v : Fin n) : Prop := v ∈ getOutNodesPtr g u ∨ NextOnStream g u v

/-- An output data anchor of `u` leads to the input control anchor of `v`. -/
def DataToControl (u v : Fin n) : Prop := v ∈ (g.outDataAnchors u).flatMap Prod.snd

def Edge (u v : Fin n) : Prop := Followed g u v ∨ DataToControl g u v

/-- The tables after the ids of a list: neighbours on a stream are neighbours within the list. -/
structure Linked (ids : List (Fin n)) (tables : StreamTables n) : Prop where
  last : ∀ stream u, tables.lastNode stream = some u ↔ u ∈ ids ∧ g.stream u = stream ∧ stream ≠ kInvalidStreamId ∧
    ∀ w ∈ ids, u < w → g.stream w ≠ stream
  next : ∀ u v, tables.nextNode u = some v ↔ v ∈ ids ∧ u ∈ ids ∧ g.stream u ≠ kInvalidStreamId ∧ g.stream v = g.stream u ∧
    u < v ∧ ∀ w ∈ ids, u < w → w < v → g.stream w ≠ g.stream u

end Links

theorem Linked.linkNode {tables : StreamTables n} (linked : Linked g ids tables)
    {id : Fin n} (above : ∀ u ∈ ids, u < id) : Linked g (ids ++ [id]) (linkNode g tables id) := by
  have last := linked.last
  have next := linked.next
  rw [DependencyAnalyzer.linkNode]
  split
  · refine ⟨fun stream u => ?_,fun u v => ?_⟩ <;> grind
  · cases before : tables.lastNode (g.stream id) with
    | none =>
      refine ⟨fun stream u => ?_,fun u v => ?_⟩
      · simp only [update_apply]
        grind
      · grind
    | some previous =>
      refine ⟨fun stream u => ?_,fun u v => ?_⟩
      all_goals
        simp only [update_apply]
        grind

theorem linked_tables (g : CheckedGraph n) (ascending : ids.Pairwise (· < ·)) :
    Linked g ids (ids.foldl (linkNode g) ⟨fun _ => none,fun _ => none,fun _ => none⟩) := by
  induction ids using reverseRecOn with
  | nil => exact ⟨fun _ _ => by simp,fun _ _ => by simp⟩
  | append_singleton ids id ih =>
    obtain ⟨ascending,-,below⟩ := pairwise_append.mp ascending
    rw [foldl_append,foldl_cons,foldl_nil]
    exact (ih ascending).linkNode fun u there => below u there id mem_cons_self

theorem mem_nextNodes {u v : Fin n} : v ∈ nextNodes g u ↔ Followed g u v := by
  have linked := (linked_tables g (pairwise_lt_finRange n)).next u v
  simp only [mem_finRange,true_and,forall_const] at linked
  rw [nextNodes,mem_append,Option.mem_toList]
  exact or_congr_right linked

def Reaches (g : CheckedGraph n) : Fin n → Fin n → Prop := TransGen (Followed g)

structure Exact (g : CheckedGraph n) (u : Fin n) (bits : LargeBitmap) : Prop where
  size : bits.size = n
  bit : ∀ v : Fin n, bits.getBit v = true ↔ Reaches g u v

/-- What the search from `root` keeps: a visited node has its bit, and either all it reaches has, or its successors wait. -/
structure Searching (g : CheckedGraph n) (searched : Finset (Fin n)) (root : Fin n) (visited : Finset (Fin n))
    (stack : List (Fin n)) (bits : LargeBitmap) : Prop where
  size : bits.size = n
  sound : ∀ v : Fin n, bits.getBit v = true → Reaches g root v
  pending : ∀ v ∈ stack, Reaches g root v
  bit : ∀ v ∈ visited, bits.getBit v = true
  spliced : ∀ v ∈ visited, v ∈ searched → ∀ w : Fin n, Reaches g v w → bits.getBit w = true
  pushed : ∀ v, v = root ∨ v ∈ visited ∧ v ∉ searched → ∀ w, Followed g v w → w ∈ visited ∨ w ∈ stack

namespace Searching

variable {g : CheckedGraph n} {searched visited : Finset (Fin n)} {root : Fin n} {bits : LargeBitmap}

theorem exact (done : Searching g searched root visited [] bits) : Exact g root bits := by
  have pushed : ∀ v, v = root ∨ v ∈ visited ∧ v ∉ searched → ∀ w, Followed g v w → w ∈ visited := fun v known w edge =>
    (done.pushed v known w edge).resolve_right not_mem_nil
  -- Along a path the search goes on as long as it meets unsearched nodes; past a searched one all bits are there.
  have complete : ∀ v, Reaches g root v →
      bits.getBit v = true ∧ (v ∈ visited ∨ ∀ w, Reaches g v w → bits.getBit w = true) := by
    intro v path
    induction path with
    | single edge =>
      have there := pushed root (.inl rfl) _ edge
      exact ⟨done.bit _ there,.inl there⟩
    | @tail v w _ edge ih =>
      have closed (all : ∀ x, Reaches g v x → bits.getBit x = true) :
          bits.getBit w = true ∧ (w ∈ visited ∨ ∀ x, Reaches g w x → bits.getBit x = true) :=
        ⟨all w (.single edge),.inr fun x path => all x (.head edge path)⟩
      rcases ih.2 with there | all
      · by_cases known : v ∈ searched
        · exact closed (done.spliced v there known)
        · have next := pushed v (.inr ⟨there,known⟩) w edge
          exact ⟨done.bit w next,.inl next⟩
      · exact closed all
  exact ⟨done.size,fun v => ⟨done.sound v,fun path => (complete v path).1⟩⟩

theorem visit {node : Fin n} {rest stack : List (Fin n)} {more : LargeBitmap}
    (searching : Searching g searched root visited (node :: rest) bits) (size : more.size = n)
    (sets : ∀ v : Fin n, more.getBit v = true ↔ bits.getBit v = true ∨ v = node ∨ node ∈ searched ∧ Reaches g node v)
    (waits : ∀ v, v ∈ stack ↔ v ∈ rest ∨ node ∉ searched ∧ Followed g node v) :
    Searching g searched root (insert node visited) stack more := by
  obtain ⟨-,sound,pending,bit,spliced,pushed⟩ := searching
  have here : Reaches g root node := pending node mem_cons_self
  refine ⟨size,fun v set => ?_,fun v wait => ?_,?_,?_,fun v known w edge => ?_⟩
  · rcases (sets v).mp set with old | rfl | ⟨-,path⟩
    · exact sound v old
    · exact here
    · exact TransGen.trans here path
  · rcases (waits v).mp wait with old | ⟨-,edge⟩
    · exact pending v (.tail _ old)
    · exact TransGen.tail here edge
  · grind
  · grind
  · have := pushed v
    grind

end Searching

theorem getBit_setBit_node (size : bits.size = n) (node v : Fin n) :
    (bits.setBit node).getBit v = true ↔ bits.getBit v = true ∨ v = node := by
  rw [LargeBitmap.getBit_setBit,Bool.or_eq_true,decide_eq_true_iff,size]
  exact or_congr_right ⟨fun same => Fin.ext same.1.symm,fun same => ⟨congrArg Fin.val same.symm,node.isLt⟩⟩

theorem searchFrom_exact {searched : Finset (Fin n)} {root : Fin n} (known : ∀ v ∈ searched, Exact g v (reach v))
    (searching : Searching g searched root visited stack bits) :
    Exact g root (searchFrom g searched reach visited stack bits) := by
  fun_induction searchFrom with
  | case1 => exact searching.exact
  | case2 visited bits node rest there ih =>
    refine ih { searching with pending := fun v there => searching.pending v (.tail _ there),pushed := fun v from_ w edge => ?_ }
    have := searching.pushed v from_ w edge
    grind
  | case3 visited bits node rest fresh there ih =>
    have size : (bits.setBit node).size = n := by rw [LargeBitmap.setBit_size,searching.size]
    refine ih (searching.visit (by rw [LargeBitmap.or_size,size]) (fun v => ?_) fun v => by simp [there])
    rw [LargeBitmap.getBit_or_of_size (size.trans (known node there).size.symm),Bool.or_eq_true,(known node there).bit,
      getBit_setBit_node searching.size]
    simp [there,or_assoc]
  | case4 visited bits node rest fresh there ih =>
    refine ih (searching.visit (by rw [LargeBitmap.setBit_size,searching.size]) (fun v => ?_) fun v => ?_)
    · rw [getBit_setBit_node searching.size]
      simp [there]
    · simp [pushNextNode,mem_nextNodes,there,or_comm]

theorem mem_of_pushNotVisited (none : pushNotVisited visited [] = []) (v : Fin n) : v ∈ visited := by
  rw [pushNotVisited] at none
  split at none
  · simp at none
  · rename_i found
    simpa using find?_eq_none.mp found v (by simp)

theorem reachLoop_exact (known : ∀ v ∈ visited, Exact g v (reach v)) (blank : ∀ v ∉ visited, reach v = LargeBitmap.zero n)
    (ended : stack = [] → ∀ v, v ∈ visited) (v : Fin n) : Exact g v (reachLoop g visited stack reach v) := by
  fun_induction reachLoop g visited stack reach with
  | case1 visited reach => exact known v (ended rfl v)
  | case2 visited reach node there ih => exact ih known blank mem_of_pushNotVisited
  | case3 visited reach node rest there more ih => exact ih known blank fun none => absurd none more
  | case4 visited reach node rest fresh found before now ih =>
    have searching : Searching g visited node ∅ (pushNextNode g node []) (reach node) := by
      rw [blank node fresh]
      refine ⟨rfl,fun v set => ?_,fun v wait => ?_,by simp,by simp,fun v from_ w edge => .inr ?_⟩
      · simp [LargeBitmap.getBit_zero] at set
      · exact .single (mem_nextNodes.mp (by simpa [pushNextNode] using wait))
      · obtain rfl : v = node := by simpa using from_
        simpa [pushNextNode] using mem_nextNodes.mpr edge
    refine ih (fun w there => ?_) (fun w other => ?_) fun none => ?_
    · rcases mem_insert.mp there with rfl | old
      · rw [update_self]
        exact searchFrom_exact known searching
      · rw [update_of_ne (by rintro rfl; exact fresh old)]
        exact known w old
    · rw [mem_insert,not_or] at other
      rw [update_of_ne other.1,blank w other.2]
    · split at none
      · rename_i last
        exact mem_of_pushNotVisited (last ▸ none)
      · contradiction

theorem startNodes_ne_nil (g : CheckedGraph n) (v : Fin n) : startNodes g ≠ [] := by
  rw [startNodes]
  split
  · rw [getLast?_eq_some_getLast (ne_nil_of_mem (g.complete v))]
    exact cons_ne_nil _ _
  · assumption

theorem initReachNodesMap_exact (g : CheckedGraph n) (v : Fin n) : Exact g v (initReachNodesMap g v) :=
  reachLoop_exact (by simp) (fun _ _ => rfl) (fun none w => absurd none (startNodes_ne_nil g w)) v

inductive IoType where
  | kIn | kOut
  deriving DecidableEq

/-- What the checker has recorded of symbols and output anchors. A list of anchors that share a block holds recorded ids. -/
structure Recorded (n : Nat) extends CheckedGraph n where
  symbolNodeIndexIOList : Fin n → Nat → List (IoType × Option (Fin n))
  isWrapper : Fin n → Bool
  isDataNode : Fin n → Bool
  batchLabel : Fin n → String
  outDataAnchor2Id : Fin n → Nat → Option Nat
  id2OutDataAnchor : Nat → Option (Fin n)
  sameBlockAnchorIds : Nat → Option (List Nat)
  owned : ∀ id ids, sameBlockAnchorIds id = some ids → ∀ other ∈ ids, (id2OutDataAnchor other).isSome = true

section Reuse
variable (g : Recorded n)

def isOutNodeSkip (node origin : Fin n) : Bool :=
  g.isWrapper node || g.isDataNode node || g.stream node == kInvalidStreamId || g.batchLabel node != g.batchLabel origin

def canReachAnchors (reach : LargeBitmap) (a : Fin n) : List Nat → Bool
  | [] => true
  | id :: ids =>
    match g.id2OutDataAnchor id with
    | none => true
    | some owner =>
      if isOutNodeSkip g owner a then canReachAnchors reach a ids
      else if reach.getBit owner then canReachAnchors reach a ids
      else false

def canReachAllSameBlockAnchor (a : Fin n) (aOutputIndex : Nat) (outNode : Fin n) : Bool :=
  let reach := initReachNodesMap g.toCheckedGraph outNode
  match g.outDataAnchor2Id a aOutputIndex with
  | none => true
  | some id =>
    match g.sameBlockAnchorIds id with
    | some ids => canReachAnchors g reach a ids
    | none => reach.getBit a

def reuseLoop (a : Fin n) (aOutputIndex : Nat) (b : Fin n) : List (IoType × Option (Fin n)) → Bool → Bool
  | [],suspended => !suspended || canReachAllSameBlockAnchor g a aOutputIndex b
  | (.kIn,some reader) :: ios,suspended =>
    if isOutNodeSkip g reader b then reuseLoop a aOutputIndex b ios suspended
    else if canReachAllSameBlockAnchor g a aOutputIndex reader then reuseLoop a aOutputIndex b ios false
    else false
  | _ :: ios,suspended => reuseLoop a aOutputIndex b ios suspended

def canAReuseBInner (a : Fin n) (aOutputIndex : Nat) (b : Fin n) (bOutputIndex : Nat) : Bool :=
  let ios := g.symbolNodeIndexIOList b bOutputIndex
  ios == [] || reuseLoop g a aOutputIndex b ios true

/-- The nodes that read the memory of an output and count: the output's own node when there is none. -/
def Reader (b : Fin n) (bOutputIndex : Nat) (node : Fin n) : Prop :=
  let Reads := fun u => (.kIn,some u) ∈ g.symbolNodeIndexIOList b bOutputIndex ∧ isOutNodeSkip g u b = false
  Reads node ∨ node = b ∧ ∀ u, ¬ Reads u

/-- The nodes that write the block of an output with a recorded id and count: the node itself when the block has no other. -/
def Writer (a : Fin n) (id : Nat) (node : Fin n) : Prop :=
  match g.sameBlockAnchorIds id with
  | some ids => (∃ other ∈ ids, g.id2OutDataAnchor other = some node) ∧ isOutNodeSkip g node a = false
  | none => node = a

end Reuse

theorem canReachAnchors_all {g : Recorded n} {reach : LargeBitmap} {ids : List Nat}
    (owned : ∀ id ∈ ids, (g.id2OutDataAnchor id).isSome = true) (yes : canReachAnchors g reach a ids = true) :
    ∀ id ∈ ids, ∀ owner, g.id2OutDataAnchor id = some owner → isOutNodeSkip g owner a = false → reach.getBit owner = true := by
  induction ids with
  | nil => exact fun id there => absurd there not_mem_nil
  | cons id ids ih => grind [canReachAnchors]

theorem canReachAllSameBlockAnchor_writers {g : Recorded n} {id : Nat} {outNode : Fin n}
    (recorded : g.outDataAnchor2Id a aOutputIndex = some id)
    (yes : canReachAllSameBlockAnchor g a aOutputIndex outNode = true) (writer : Writer g a id node) :
    Reaches g.toCheckedGraph outNode node := by
  rw [← (initReachNodesMap_exact g.toCheckedGraph outNode).bit]
  simp only [canReachAllSameBlockAnchor,recorded] at yes
  rw [Writer] at writer
  cases same : g.sameBlockAnchorIds id with
  | none =>
    rw [same] at writer yes
    exact writer ▸ yes
  | some ids =>
    rw [same] at writer yes
    obtain ⟨⟨other,there,owner⟩,counts⟩ := writer
    exact canReachAnchors_all (g.owned id ids same) yes other there node owner counts

/-- A yes of the loop is a yes for every reader that counts, and for `b` when the loop has met none. -/
theorem reuseLoop_all {g : Recorded n} {b : Fin n} {ios : List (IoType × Option (Fin n))}
    {suspended : Bool} (yes : reuseLoop g a aOutputIndex b ios suspended = true) :
    (∀ u, (.kIn,some u) ∈ ios → isOutNodeSkip g u b = false → canReachAllSameBlockAnchor g a aOutputIndex u = true) ∧
    (suspended = true → (∀ u, (.kIn,some u) ∈ ios → isOutNodeSkip g u b = true) →
      canReachAllSameBlockAnchor g a aOutputIndex b = true) := by
  fun_induction reuseLoop g a aOutputIndex b ios suspended with
  | case1 => grind
  | case2 => grind
  | case3 => grind
  | case4 => exact absurd yes Bool.false_ne_true
  | case5 io ios suspended other ih =>
    have passed : ∀ u, (IoType.kIn,some u) ≠ io := fun u same => other u same.symm
    simpa [passed] using ih yes

theorem followed_of_edge {g : CheckedGraph n} (joined : ∀ u v, DataToControl g u v → Reaches g u v) {a b : Fin n}
    (path : TransGen (Edge g) a b) : Reaches g a b := by
  have step : ∀ {u v}, Edge g u v → Reaches g u v := by
    rintro u v (followed | control)
    · exact .single followed
    · exact joined u v control
  induction path with
  | single edge => exact step edge
  | tail _ edge ih => exact TransGen.trans ih (step edge)

/-- Node 1 reads the output of node 0 and is also its control successor; nodes 2 and 3 write one block. -/
def shared : Recorded 4 where
  allNodes := finRange 4
  complete := mem_finRange
  outDataAnchors node := if node.val = 0 then [((finRange 4)[1]?.toList,(finRange 4)[1]?.toList)] else []
  outControlAnchor _ := []
  inDataAnchors node := if node.val = 1 then [(finRange 4)[0]?] else []
  inControlAnchor _ := []
  stream _ := 0
  isNetOutput node := node = Fin.last 3
  symbolNodeIndexIOList node _ := if node.val = 0 then [(.kOut,some node),(.kIn,(finRange 4)[1]?)] else [(.kOut,some node)]
  isWrapper _ := false
  isDataNode _ := false
  batchLabel _ := ""
  outDataAnchor2Id node _ := some node
  id2OutDataAnchor id := (finRange 4)[id]?
  sameBlockAnchorIds id := if id = 2 ∨ id = 3 then some [2,3] else none
  owned id ids known := by
    split at known
    · cases known
      decide
    · cases known

/-- The output of node 0 leads only to the control input of node 1, on another stream. -/
def controlled : CheckedGraph 2 where
  allNodes := finRange 2
  complete := mem_finRange
  outDataAnchors node := if node.val = 0 then [([],[Fin.last 1])] else []
  outControlAnchor _ := []
  inDataAnchors _ := []
  inControlAnchor _ := []
  stream node := node.val
  isNetOutput node := node = Fin.last 1

end GraphEngine.Memory.DependencyAnalyzer
