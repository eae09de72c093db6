import Mathlib.Data.List.MinMax
import GraphEngine.Lib.Countdown

/-! Queues that let an item of least rank go first and, of several, the one that came first: as a list in the order of arrival,
and as an ordered map from ranks to queues. -/
namespace GraphEngine.Lib

open List
open Countdown (settle outstanding touch visit)

section Lists
variable {α : Type} [DecidableEq α] {p : α → Bool} {a b : α} {items rest : List α}

theorem idxOf_le_of_filter (items : List α) (keepsA : p a) (keepsB : p b)
    (earlier : (items.filter p).idxOf a ≤ (items.filter p).idxOf b) : items.idxOf a ≤ items.idxOf b := by
  induction items with
  | nil => simp
  | cons x items ih =>
    by_cases first : x = a
    · subst first
      simp
    · by_cases second : x = b
      · subst second
        rw [filter_cons_of_pos keepsB,idxOf_cons_self,idxOf_cons_ne _ first] at earlier
        omega
      · rw [idxOf_cons_ne _ first,idxOf_cons_ne _ second]
        by_cases kept : p x
        · rw [filter_cons_of_pos kept,idxOf_cons_ne _ first,idxOf_cons_ne _ second] at earlier
          exact Nat.succ_le_succ (ih (Nat.le_of_succ_le_succ earlier))
        · rw [filter_cons_of_neg kept] at earlier
          exact Nat.succ_le_succ (ih earlier)

theorem idxOf_le_of_head (kept : items.filter p = a :: rest) (keepsB : p b) : items.idxOf a ≤ items.idxOf b := by
  have keepsA : p a := of_mem_filter (by rw [kept]; exact mem_cons_self)
  apply idxOf_le_of_filter items keepsA keepsB
  rw [kept,idxOf_cons_self]
  exact Nat.zero_le _

end Lists

section Stable
variable {α : Type} [DecidableEq α] (rank : α → Int)

def leastFirst (items : List α) : Option α :=
  letI : Preorder Int := Int.instLinearOrder.toPreorder
  items.argmin rank

def stable : Discipline α where
  enqueue items item := items ++ [item]
  dequeue items := (leastFirst rank items).map fun item => (item,items.erase item)
  enqueue_perm items item := List.perm_append_singleton item items
  dequeue_nil := rfl
  dequeue_cons item items := by
    cases found : leastFirst rank (item :: items) with
    | none => cases List.argmin_eq_none.mp found
    | some next => exact ⟨next,_,rfl,List.perm_cons_erase (List.argmin_mem found)⟩

variable {rank}

theorem stable_dequeue {items rest : List α} {item : α} (taken : (stable rank).dequeue items = some (item,rest)) :
    item ∈ leastFirst rank items ∧ rest = items.erase item := by
  obtain ⟨found,least,same⟩ := Option.map_eq_some_iff.mp taken
  cases same
  exact ⟨least,rfl⟩

end Stable

section Buckets
variable {α : Type}

abbrev Buckets (α : Type) := List (Int × List α)

def Buckets.push (key : Int) (item : α) : Buckets α → Buckets α
  | [] => [(key,[item])]
  | (other,queue) :: rest =>
    if key < other then (key,[item]) :: (other,queue) :: rest
    else if key = other then (other,queue ++ [item]) :: rest
    else (other,queue) :: push key item rest

def Buckets.pop : Buckets α → Option (α × Buckets α)
  | (key,item :: queue) :: rest => some (item,if queue.isEmpty then rest else (key,queue) :: rest)
  | _ => none

def Buckets.queueOf (buckets : Buckets α) (key : Int) : List α :=
  match buckets.find? (·.1 = key) with
  | some (_,queue) => queue
  | none => []

structure Buckets.Valid (buckets : Buckets α) : Prop where
  ascending : buckets.Pairwise (·.1 < ·.1)
  filled : ∀ entry ∈ buckets, entry.2 ≠ []

theorem Buckets.queueOf_cons (key other : Int) (queue : List α) (rest : Buckets α) :
    Buckets.queueOf ((other,queue) :: rest) key = if other = key then queue else rest.queueOf key := by
  by_cases same : other = key
  all_goals simp [Buckets.queueOf,same]

theorem Buckets.valid_cons {entry : Int × List α} {rest : Buckets α} :
    Buckets.Valid (entry :: rest) ↔ (∀ other ∈ rest, entry.1 < other.1) ∧ entry.2 ≠ [] ∧ rest.Valid := by
  constructor
  · rintro ⟨ascending,filled⟩
    obtain ⟨below,ascending⟩ := pairwise_cons.mp ascending
    exact ⟨below,filled _ mem_cons_self,ascending,fun other later => filled other (mem_cons_of_mem _ later)⟩
  · rintro ⟨below,some_,ascending,filled⟩
    exact ⟨pairwise_cons.mpr ⟨below,ascending⟩,forall_mem_cons.mpr ⟨some_,filled⟩⟩

variable {buckets : Buckets α} {key : Int} {items : List α}

theorem Buckets.queueOf_of_above (above : ∀ entry ∈ buckets, key < entry.1) : buckets.queueOf key = [] := by
  have none_ : buckets.find? (·.1 = key) = none := by
    rw [find?_eq_none]
    intro entry member
    have := above entry member
    simp only [decide_eq_true_eq]
    omega
  rw [Buckets.queueOf,none_]

theorem Buckets.mem_push {item : α} {entry : Int × List α}
    (member : entry ∈ buckets.push key item) : entry.1 = key ∨ ∃ old ∈ buckets, old.1 = entry.1 := by
  induction buckets with
  | nil => simp_all [push]
  | cons first rest ih =>
    obtain ⟨other,queue⟩ := first
    unfold push at member
    split at member
    · rcases mem_cons.mp member with rfl | old
      · exact .inl rfl
      · exact .inr ⟨entry,old,rfl⟩
    · split at member
      · rcases mem_cons.mp member with rfl | old
        · exact .inr ⟨_,mem_cons_self,rfl⟩
        · exact .inr ⟨entry,mem_cons_of_mem _ old,rfl⟩
      · rcases mem_cons.mp member with rfl | old
        · exact .inr ⟨_,mem_cons_self,rfl⟩
        · exact (ih old).imp_right fun ⟨before,there,same⟩ => ⟨before,mem_cons_of_mem _ there,same⟩

theorem Buckets.Valid.push (valid : buckets.Valid) (key : Int) (item : α) :
    (buckets.push key item).Valid ∧ ∀ other, (buckets.push key item).queueOf other =
      if other = key then buckets.queueOf other ++ [item] else buckets.queueOf other := by
  induction buckets with
  | nil =>
    refine ⟨valid_cons.mpr ⟨by simp,by simp,valid⟩,fun other => ?_⟩
    rw [Buckets.push,queueOf_cons]
    by_cases same : key = other
    · simp [same,Buckets.queueOf]
    · simp [same,Ne.symm same]
  | cons first rest ih =>
    obtain ⟨front,queue⟩ := first
    obtain ⟨below,filled,later⟩ := valid_cons.mp valid
    unfold Buckets.push
    split
    · next less =>
      have above : ∀ entry ∈ (front,queue) :: rest, key < entry.1 := by
        exact forall_mem_cons.mpr ⟨less,fun entry later => less.trans (below entry later)⟩
      refine ⟨valid_cons.mpr ⟨above,by simp,valid⟩,fun other => ?_⟩
      rw [queueOf_cons]
      by_cases same : key = other
      · subst same
        rw [if_pos rfl,if_pos rfl,queueOf_of_above above]
        rfl
      · rw [if_neg same,if_neg (Ne.symm same)]
    · split
      · next _ same =>
        subst same
        refine ⟨valid_cons.mpr ⟨below,by simp,later⟩,fun other => ?_⟩
        rw [queueOf_cons,queueOf_cons]
        by_cases here : key = other
        · rw [if_pos here,if_pos here.symm,if_pos here]
        · rw [if_neg here,if_neg (Ne.symm here),if_neg here]
      · next notLess different =>
        obtain ⟨pushed,contents⟩ := ih later
        refine ⟨valid_cons.mpr ⟨?_,filled,pushed⟩,fun other => ?_⟩
        · intro entry member
          rcases mem_push member with same | ⟨old,there,same⟩
          · dsimp only
            omega
          · rw [← same]
            exact below old there
        · rw [queueOf_cons,queueOf_cons,contents]
          by_cases here : front = other
          · rw [if_pos here,if_neg (by omega),if_pos here]
          · rw [if_neg here,if_neg here]

variable [DecidableEq α] {rank : α → Int}

structure Buckets.Sorts (rank : α → Int) (buckets : Buckets α) (items : List α) : Prop where
  valid : buckets.Valid
  contents : ∀ key, buckets.queueOf key = items.filter (rank · = key)

omit [DecidableEq α] in
theorem Buckets.sorts_nil (rank : α → Int) : Buckets.Sorts rank [] [] := ⟨⟨.nil,by simp⟩,fun _ => rfl⟩

omit [DecidableEq α] in
theorem Buckets.Sorts.push (sorts : Sorts rank buckets items) (item : α) :
    Sorts rank (buckets.push (rank item) item) (items ++ [item]) := by
  obtain ⟨valid,contents⟩ := sorts.valid.push (rank item) item
  refine ⟨valid,fun key => ?_⟩
  rw [contents,sorts.contents,filter_append]
  by_cases same : key = rank item
  · simp [same]
  · simp [same,Ne.symm same]

theorem Buckets.Sorts.pop (sorts : Sorts rank buckets items) :
    (buckets.pop = none ∧ items = []) ∨ ∃ item buckets', buckets.pop = some (item,buckets') ∧
      (stable rank).dequeue items = some (item,items.erase item) ∧ Sorts rank buckets' (items.erase item) := by
  match buckets,sorts with
  | [],sorts =>
    refine .inl ⟨rfl,eq_nil_iff_forall_not_mem.mpr fun item member => ?_⟩
    have kept : item ∈ items.filter (rank · = rank item) := mem_filter.mpr ⟨member,by simp⟩
    rw [← sorts.contents] at kept
    cases kept
  | (key,[]) :: rest,sorts => exact absurd rfl (sorts.valid.filled _ mem_cons_self)
  | (key,item :: queue) :: rest,sorts =>
    obtain ⟨below,-,later⟩ := valid_cons.mp sorts.valid
    have front : items.filter (rank · = key) = item :: queue := by
      rw [← sorts.contents,queueOf_cons,if_pos rfl]
    have here : rank item = key := by
      have kept : item ∈ items.filter (rank · = key) := by rw [front]; exact mem_cons_self
      simpa using of_mem_filter kept
    have least : ∀ other ∈ items, key ≤ rank other := by
      intro other member
      have kept : other ∈ items.filter (rank · = rank other) := mem_filter.mpr ⟨member,by simp⟩
      rw [← sorts.contents,queueOf_cons] at kept
      split at kept
      · next same => exact same.le
      · by_contra less
        rw [queueOf_of_above fun entry there => by have := below entry there; dsimp only at this; omega] at kept
        cases kept
    have chosen : item ∈ leastFirst rank items := by
      rw [leastFirst,mem_argmin_iff]
      refine ⟨(mem_filter.mp (front ▸ mem_cons_self : item ∈ items.filter (rank · = key))).1,?_,?_⟩
      · intro other member
        rw [here]
        exact least other member
      · intro other member notMore
        apply idxOf_le_of_head front
        have := least other member
        simp only [decide_eq_true_eq]
        omega
    refine .inr ⟨item,_,rfl,?_,⟨?_,fun other => ?_⟩⟩
    · change (leastFirst rank items).map _ = _
      rw [Option.mem_def.mp chosen]
      rfl
    · split
      · exact later
      · next some_ => exact valid_cons.mpr ⟨below,by simpa using some_,later⟩
    · by_cases same : key = other
      · subst same
        rw [← erase_filter,front,erase_cons_head]
        split
        · next empty =>
          rw [queueOf_of_above below,List.isEmpty_iff.mp empty]
        · rw [queueOf_cons,if_pos rfl]
      · have apart : ¬(decide (rank item = other)) = true := by
          simp only [decide_eq_true_eq]
          omega
        have absent : item ∉ items.filter (rank · = other) := fun member => apart (mem_filter.mp member).2
        rw [← erase_filter,erase_of_not_mem absent,← sorts.contents,queueOf_cons,if_neg same]
        split
        · rfl
        · rw [queueOf_cons,if_neg same]

end Buckets

section Arrivals
variable {ι : Type} [DecidableEq ι] [Fintype ι] {rank : ι → Int} {indegree : ι → Int} {succ : ι → List ι}
  {pace : Countdown.Pace ι} {done : List ι} {owed : ι → Nat} {start : List ι}

instance (succ : ι → List ι) (done : List ι) : DecidablePred (Countdown.Ready succ done) :=
  fun i => inferInstanceAs (Decidable (i ∉ done ∧ ∀ source, i ∈ succ source → source ∈ done))

/-- The nodes in the order in which they became ready (visited nodes newest first): at the start as given, later with their
last edge. -/
def arrivals (succ : ι → List ι) (start : List ι) : List ι → List ι
  | [] => start
  | node :: done => arrivals succ start done ++ (succ node).dedup.filter fun i => decide (Countdown.Ready succ (node :: done) i)

omit [Fintype ι] in
theorem settle_ready {nodes : List ι} (kept : Countdown.Kept indegree done (fun i => owed i + nodes.count i) pace) :
    (settle (stable rank) indegree pace nodes).ready = pace.ready ++ nodes.dedup.filter fun i => decide (owed i = 0) := by
  induction nodes generalizing pace with
  | nil => simp [settle]
  | cons node nodes ih =>
    have more := (kept.first : _ ∧ Countdown.Kept _ _ _ (touch (stable rank) indegree pace node)).1
    have after : Countdown.Kept indegree done (fun i => owed i + nodes.count i)
        (touch (stable rank) indegree pace node) := kept.first.2
    rw [settle,ih after]
    have left := (kept.waiting node (kept.unready more)).2
    rw [count_cons_self] at left
    unfold touch
    by_cases again : node ∈ nodes
    · have some_ := count_pos_iff.mpr again
      rw [dedup_cons_of_mem again,if_neg (by omega)]
    · have none_ := count_eq_zero.mpr again
      rw [dedup_cons_of_notMem again]
      by_cases last : owed node = 0
      · rw [if_pos (by omega),filter_cons_of_pos (by simpa using last)]
        simp [stable]
      · rw [if_neg (by omega),filter_cons_of_neg (by simpa using last)]

/-- A node is served in its turn: ready, of least rank, and the first of its rank to become ready. -/
structure InTurn (rank : ι → Int) (succ : ι → List ι) (start older : List ι) (node : ι) : Prop where
  ready : Countdown.Ready succ older node
  least : ∀ other, Countdown.Ready succ older other → rank node ≤ rank other
  first : ∀ other, Countdown.Ready succ older other → rank other = rank node →
    (arrivals succ start older).idxOf node ≤ (arrivals succ start older).idxOf other

def AllInTurn (rank : ι → Int) (succ : ι → List ι) (start : List ι) : List ι → Prop
  | [] => True
  | node :: older => InTurn rank succ start older node ∧ AllInTurn rank succ start older

variable {node : ι}

theorem AllInTurn.turn {newer older : List ι}
    (all : AllInTurn rank succ start (newer ++ node :: older)) : InTurn rank succ start older node := by
  induction newer with
  | nil => exact all.1
  | cons _ newer ih => exact ih all.2

theorem next_ready (kept : Countdown.Kept indegree done (outstanding succ done) pace)
    (waiting : pace.ready = (arrivals succ start done).filter fun i => decide (i ∉ done)) {rest : List ι}
    (taken : (stable rank).dequeue pace.ready = some (node,rest)) :
    (settle (stable rank) indegree ⟨rest,pace.left⟩ (succ node)).ready =
      (arrivals succ start (node :: done)).filter fun i => decide (i ∉ node :: done) := by
  obtain ⟨sources,after⟩ := kept.next taken
  obtain ⟨chosen,rfl⟩ := stable_dequeue taken
  have once : pace.ready.Nodup := (nodup_append.mp kept.once).2.1
  have fresh : node ∉ done := fun visited =>
    (nodup_append.mp kept.once).2.2 node visited node (argmin_mem chosen) rfl
  have old : pace.ready.erase node = (arrivals succ start done).filter fun i => decide (i ∉ node :: done) := by
    rw [once.erase_eq_filter,waiting,filter_filter]
    apply filter_congr
    intro i _
    simp only [mem_cons,not_or,Bool.decide_and]
    by_cases same : i = node <;> simp [same]
  have unvisited : ∀ i ∈ succ node, i ∉ node :: done := by
    intro i edge visited
    have free := (after.settled i (mem_append_left _ visited)).1
    have := count_pos_iff.mpr edge
    omega
  have new_ : ((succ node).dedup.filter fun i => decide (outstanding succ (node :: done) i = 0)) =
      ((succ node).dedup.filter fun i => decide (Countdown.Ready succ (node :: done) i)).filter
        fun i => decide (i ∉ node :: done) := by
    rw [filter_filter]
    apply filter_congr
    intro i member
    have there := unvisited i (mem_dedup.mp member)
    have same : outstanding succ (node :: done) i = 0 ↔ Countdown.Ready succ (node :: done) i := by
      constructor
      · intro none_
        exact ⟨there,fun source edge => Countdown.outstanding_eq_zero none_ edge⟩
      · rintro ⟨_,all⟩
        exact Finset.sum_eq_zero fun source unseen => count_eq_zero.mpr fun edge =>
          (Finset.mem_filter.mp unseen).2 (all source edge)
    simp [same,there]
  rw [settle_ready after,arrivals,filter_append,old,new_]

theorem visit_inTurn (fuel : Nat) (kept : Countdown.Kept indegree done (outstanding succ done) pace)
    (waiting : pace.ready = (arrivals succ start done).filter fun i => decide (i ∉ done))
    (all : AllInTurn rank succ start done) :
    AllInTurn rank succ start ((visit (stable rank) indegree succ fuel pace).reverse ++ done) := by
  induction fuel generalizing done pace with
  | zero => exact all
  | succ fuel ih =>
    cases taken : (stable rank).dequeue pace.ready with
    | none => simpa [visit,taken] using all
    | some found =>
      obtain ⟨node,rest⟩ := found
      have after : Countdown.Kept indegree (node :: done) (outstanding succ (node :: done))
          (settle (stable rank) indegree ⟨rest,pace.left⟩ (succ node)) := (kept.next taken).2.settle
      have chosen := (stable_dequeue taken).1
      have turn : InTurn rank succ start done node := by
        refine ⟨(kept.mem_ready_iff node).mp (argmin_mem chosen),?_,?_⟩
        · intro other ready
          exact le_of_mem_argmin ((kept.mem_ready_iff other).mpr ready) chosen
        · intro other ready same
          have earlier := index_of_argmin chosen ((kept.mem_ready_iff other).mpr ready) same.le
          rw [waiting] at earlier
          exact idxOf_le_of_filter _ (by simpa using ((kept.mem_ready_iff node).mp (argmin_mem chosen)).1)
            (by simpa using ready.1) earlier
      simpa [visit,taken] using ih after (next_ready kept waiting taken) ⟨turn,all⟩

end Arrivals

end GraphEngine.Lib
