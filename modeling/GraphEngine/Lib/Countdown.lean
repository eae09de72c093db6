import Mathlib.Algebra.BigOperators.Ring.Finset
import Mathlib.Algebra.Order.Ring.Nat
import Mathlib.Data.List.ReduceOption
import Mathlib.Data.Nat.SuccPred

/-! Visiting a finite graph by counting down: a node is ready once all edges into it are used up, and
the ready nodes wait in a queue of any discipline. -/
namespace GraphEngine.Lib

open List

structure Discipline (α : Type) where
  enqueue : List α → α → List α
  dequeue : List α → Option (α × List α)
  enqueue_perm : ∀ items item, (enqueue items item).Perm (item :: items)
  dequeue_nil : dequeue [] = none
  dequeue_cons : ∀ item items, ∃ next rest, dequeue (item :: items) = some (next,rest) ∧
    (item :: items).Perm (next :: rest)

def Discipline.fifo (α : Type) : Discipline α where
  enqueue items item := items ++ [item]
  dequeue
    | [] => none
    | item :: items => some (item,items)
  enqueue_perm items item := List.perm_append_singleton item items
  dequeue_nil := rfl
  dequeue_cons item items := ⟨item,items,rfl,.refl _⟩

def Discipline.enqueueAll {α : Type} (order : Discipline α) (items : List α) : List α → List α
  | [] => items
  | item :: more => order.enqueueAll (order.enqueue items item) more

variable {α : Type} {items : List α} (order : Discipline α)

theorem Discipline.enqueueAll_perm (items more : List α) : (order.enqueueAll items more).Perm (items ++ more) := by
  induction more generalizing items with
  | nil => simp [enqueueAll]
  | cons item more ih =>
    apply (ih _).trans
    apply ((order.enqueue_perm items item).append_right more).trans
    exact perm_middle.symm

theorem Discipline.dequeue_eq_none (none_ : order.dequeue items = none) : items = [] := by
  cases items with
  | nil => rfl
  | cons item items =>
    obtain ⟨next,rest,found,-⟩ := order.dequeue_cons item items
    rw [found] at none_
    cases none_

theorem Discipline.dequeue_perm {rest : List α} {item : α}
    (taken : order.dequeue items = some (item,rest)) : items.Perm (item :: rest) := by
  cases items with
  | nil => rw [order.dequeue_nil] at taken; cases taken
  | cons first items =>
    obtain ⟨next,others,found,perm⟩ := order.dequeue_cons first items
    rw [found] at taken
    cases taken
    exact perm

namespace Countdown

structure Pace (ι : Type) where
  ready : List ι
  left : ι → Int

section Visit
variable {ι : Type} [DecidableEq ι] (order : Discipline ι) (indegree : ι → Int) (succ : ι → List ι)

/-- One edge into a node is used up; the last one makes it ready and winds its counter up again. -/
def touch (pace : Pace ι) (node : ι) : Pace ι :=
  if pace.left node - 1 = 0 then
    ⟨order.enqueue pace.ready node,Function.update pace.left node (indegree node)⟩
  else ⟨pace.ready,Function.update pace.left node (pace.left node - 1)⟩

def settle (pace : Pace ι) : List ι → Pace ι
  | [] => pace
  | node :: nodes => settle (touch order indegree pace node) nodes

def visit : Nat → Pace ι → List ι
  | 0,_ => []
  | fuel + 1,pace =>
    match order.dequeue pace.ready with
    | none => []
    | some (node,rest) => node :: visit fuel (settle order indegree ⟨rest,pace.left⟩ (succ node))

end Visit

variable {ι : Type} {order : Discipline ι} {indegree : ι → Int} {succ : ι → List ι} {pace : Pace ι} {done : List ι}
  {owed : ι → Nat} {node source : ι} {newer older : List ι}

/-- A visited or ready node has all its edges behind it and its counter wound up; for every other
node the counter says how many edges are owed. -/
structure Kept (indegree : ι → Int) (done : List ι) (owed : ι → Nat) (pace : Pace ι) : Prop where
  once : (done ++ pace.ready).Nodup
  settled : ∀ i ∈ done ++ pace.ready, owed i = 0 ∧ pace.left i = indegree i
  waiting : ∀ i ∉ done ++ pace.ready, 0 < owed i ∧ pace.left i = owed i

/-- Everything before a node of the list (newest first) that has an edge into it is visited earlier. -/
def Sequenced (succ : ι → List ι) : List ι → Prop
  | [] => True
  | node :: older => (∀ source, node ∈ succ source → source ∈ older) ∧ Sequenced succ older

theorem Sequenced.suffix (sequenced : Sequenced succ (newer ++ older)) : Sequenced succ older := by
  induction newer with
  | nil => exact sequenced
  | cons _ newer ih => exact ih sequenced.2

theorem Sequenced.before (sequenced : Sequenced succ (newer ++ node :: older))
    (edge : node ∈ succ source) : source ∈ older := sequenced.suffix.1 source edge

variable {shaped : List ι → Prop} {before : ι → ι → Prop}

def Ready (succ : ι → List ι) (done : List ι) (i : ι) : Prop := i ∉ done ∧ ∀ source, i ∈ succ source → source ∈ done

/-- Every node of the list (newest first) was to be preferred to all that were ready with it. -/
def Preferred (succ : ι → List ι) (before : ι → ι → Prop) : List ι → Prop
  | [] => True
  | node :: older => (∀ other, Ready succ older other → before node other) ∧ Preferred succ before older

theorem Preferred.chosen (preferred : Preferred succ before (newer ++ node :: older)) :
    ∀ other, Ready succ older other → before node other := by
  induction newer with
  | nil => exact preferred.1
  | cons _ newer ih => exact ih preferred.2

structure Prefers (order : Discipline ι) (shaped : List ι → Prop) (before : ι → ι → Prop) : Prop where
  enqueue : ∀ items item, shaped items → shaped (order.enqueue items item)
  dequeue : ∀ items item rest, shaped items → order.dequeue items = some (item,rest) →
    shaped rest ∧ ∀ other ∈ items, before item other

theorem Prefers.enqueueAll (prefers : Prefers order shaped before) {items : List ι} (shape : shaped items) (more : List ι) :
    shaped (order.enqueueAll items more) := by
  induction more generalizing items with
  | nil => exact shape
  | cons item more ih => exact ih (prefers.enqueue items item shape)

section

variable (kept : Kept indegree done owed pace)
include kept

theorem Kept.congr {owed' : ι → Nat} (same : ∀ i, owed' i = owed i) : Kept indegree done owed' pace := by
  rw [show owed' = owed from funext same]
  exact kept

theorem Kept.unready (more : 0 < owed node) : node ∉ done ++ pace.ready := by
  intro member
  have settled := (kept.settled node member).1
  omega

theorem Kept.length_le [Fintype ι] : done.length + pace.ready.length ≤ Fintype.card ι := by
  rw [← length_append]
  exact kept.once.length_le_card

theorem Kept.room [Fintype ι] (more : 0 < owed node) : pace.ready.length < Fintype.card ι := by
  have once : (node :: (done ++ pace.ready)).Nodup := nodup_cons.mpr ⟨kept.unready more,kept.once⟩
  have bound := once.length_le_card
  rw [length_cons,length_append] at bound
  omega

variable [DecidableEq ι]

theorem Kept.touch (more : 0 < owed node) :
    Kept indegree done (Function.update owed node (owed node - 1)) (touch order indegree pace node) := by
  have unready := kept.unready more
  have left := (kept.waiting node unready).2
  unfold Countdown.touch
  split
  next last =>
    have none_ : owed node - 1 = 0 := by omega
    have members : ∀ i, i ∈ done ++ order.enqueue pace.ready node ↔ i = node ∨ i ∈ done ++ pace.ready := by
      intro i
      simp only [mem_append,(order.enqueue_perm pace.ready node).mem_iff,mem_cons]
      tauto
    have shuffled : (done ++ order.enqueue pace.ready node).Perm (node :: (done ++ pace.ready)) :=
      ((order.enqueue_perm pace.ready node).append_left done).trans perm_middle
    constructor
    · rw [shuffled.nodup_iff,nodup_cons]
      exact ⟨unready,kept.once⟩
    · intro i member
      rcases (members i).mp member with rfl | before
      · simpa using none_
      · have away : i ≠ node := fun same => unready (same ▸ before)
        simpa [away] using kept.settled i before
    · intro i absent
      rw [members,not_or] at absent
      simpa [absent.1] using kept.waiting i absent.2
  next early =>
    constructor
    · exact kept.once
    · intro i member
      have away : i ≠ node := fun same => unready (same ▸ member)
      simpa [away] using kept.settled i member
    · intro i absent
      by_cases here : i = node
      · subst here
        simp only [Function.update_self]
        omega
      · simpa [here] using kept.waiting i absent

end

variable [DecidableEq ι] {nodes : List ι}

theorem Kept.first (kept : Kept indegree done (fun i => owed i + (node :: nodes).count i) pace) :
    0 < owed node + (node :: nodes).count node ∧
      Kept indegree done (fun i => owed i + nodes.count i) (Countdown.touch order indegree pace node) := by
  have more : 0 < owed node + (node :: nodes).count node := Nat.add_pos_right _ (by simp)
  refine ⟨more,(kept.touch more).congr ?_⟩
  intro i
  by_cases here : i = node
  · subst here; simp
  · simp [here,count_cons_of_ne (Ne.symm here)]

theorem Kept.settle (kept : Kept indegree done (fun i => owed i + nodes.count i) pace) :
    Kept indegree done owed (settle order indegree pace nodes) := by
  induction nodes generalizing pace with
  | nil => exact kept.congr fun i => by simp
  | cons node nodes ih => exact ih kept.first.2

theorem Prefers.settle (prefers : Prefers order shaped before) (shape : shaped pace.ready) (nodes : List ι) :
    shaped (settle order indegree pace nodes).ready := by
  induction nodes generalizing pace with
  | nil => exact shape
  | cons node nodes ih =>
    apply ih
    unfold touch
    split
    · exact prefers.enqueue _ _ shape
    · exact shape

variable [Fintype ι]

def outstanding (succ : ι → List ι) (done : List ι) (i : ι) : Nat :=
  ∑ j ∈ Finset.univ.filter (· ∉ done), (succ j).count i

theorem outstanding_cons (fresh : node ∉ done) (i : ι) :
    outstanding succ done i = outstanding succ (node :: done) i + (succ node).count i := by
  have split_ : Finset.univ.filter (· ∉ done) = insert node (Finset.univ.filter (· ∉ node :: done)) := by
    ext j
    by_cases here : j = node
    · subst here; simpa using fresh
    · simp [here]
  rw [outstanding,split_,Finset.sum_insert (by simp),outstanding,add_comm]

theorem outstanding_eq_zero (none_ : outstanding succ done node = 0) (edge : node ∈ succ source) : source ∈ done := by
  by_contra fresh
  have zero := Finset.sum_eq_zero_iff.mp none_ source (by simpa using fresh)
  exact count_eq_zero.mp zero edge

theorem Kept.next (kept : Kept indegree done (outstanding succ done) pace) {rest : List ι}
    (taken : order.dequeue pace.ready = some (node,rest)) :
    (∀ source, node ∈ succ source → source ∈ done) ∧ Kept indegree (node :: done)
      (fun i => outstanding succ (node :: done) i + (succ node).count i) ⟨rest,pace.left⟩ := by
  have shuffled : (done ++ pace.ready).Perm (node :: done ++ rest) :=
    ((order.dequeue_perm taken).append_left done).trans perm_middle
  have once := shuffled.nodup_iff.mp kept.once
  have fresh : node ∉ done := fun member => (nodup_cons.mp once).1 (mem_append_left _ member)
  have free := (kept.settled node (shuffled.mem_iff.mpr (by simp))).1
  refine ⟨fun source edge => outstanding_eq_zero free edge,?_⟩
  refine Kept.congr ?_ fun i => (outstanding_cons fresh i).symm
  exact ⟨once,fun i member => kept.settled i (shuffled.mem_iff.mpr member),
    fun i absent => kept.waiting i fun member => absent (shuffled.mem_iff.mp member)⟩

theorem kept_start (order : Discipline ι) {start : List ι} (degree : ∀ i, indegree i = (∑ j, (succ j).count i : Nat))
    (starts : ∀ i, i ∈ start ↔ indegree i = 0) (once : start.Nodup) :
    Kept indegree [] (outstanding succ []) ⟨order.enqueueAll [] start,indegree⟩ := by
  have members : ∀ i, i ∈ [] ++ order.enqueueAll [] start ↔ indegree i = 0 := by
    intro i
    rw [nil_append,(order.enqueueAll_perm [] start).mem_iff,nil_append,starts]
  have all : ∀ i, (outstanding succ [] i : Int) = indegree i := by
    intro i
    rw [degree,outstanding]
    simp
  constructor
  · exact (order.enqueueAll_perm [] start).nodup_iff.mpr once
  · intro i member
    have zero := (members i).mp member
    have same := all i
    exact ⟨by omega,rfl⟩
  · intro i absent
    rw [members] at absent
    have same := all i
    exact ⟨by omega,same.symm⟩

theorem exists_source {i : ι} (more : 0 < outstanding succ done i) : ∃ source, source ∉ done ∧ i ∈ succ source := by
  obtain ⟨source,unvisited,edges⟩ := Finset.exists_ne_zero_of_sum_ne_zero more.ne'
  exact ⟨source,(Finset.mem_filter.mp unvisited).2,count_pos_iff.mp (Nat.pos_of_ne_zero edges)⟩

section

variable (acyclic : ∀ i, ¬ Relation.TransGen (fun source target => target ∈ succ source) i i)
include acyclic

theorem Kept.finished
    (kept : Kept indegree done (outstanding succ done) pace) (empty : pace.ready = []) (i : ι) : i ∈ done := by
  have founded : WellFounded (Relation.TransGen fun source target => target ∈ succ source) := by
    have : IsTrans ι (Relation.TransGen fun source target => target ∈ succ source) := ⟨fun _ _ _ => .trans⟩
    have : Std.Irrefl (Relation.TransGen fun source target => target ∈ succ source) := ⟨acyclic⟩
    exact Finite.wellFounded_of_trans_of_irrefl _
  induction i using founded.induction with
  | _ i ih =>
    by_contra fresh
    obtain ⟨source,unvisited,edge⟩ := exists_source (kept.waiting i (by simpa [empty] using fresh)).1
    exact unvisited (ih source (.single edge))

theorem Kept.visit (fuel : Nat) (enough : Fintype.card ι ≤ done.length + fuel)
    (kept : Kept indegree done (outstanding succ done) pace) (sequenced : Sequenced succ done) :
    ((visit order indegree succ fuel pace).reverse ++ done).Nodup ∧
      Sequenced succ ((visit order indegree succ fuel pace).reverse ++ done) ∧
      ∀ i, i ∈ (visit order indegree succ fuel pace).reverse ++ done := by
  induction fuel generalizing done pace with
  | zero =>
    have bound := kept.length_le
    have empty : pace.ready = [] := length_eq_zero_iff.mp (by omega)
    exact ⟨kept.once.of_append_left,sequenced,fun i => kept.finished acyclic empty i⟩
  | succ fuel ih =>
    cases taken : order.dequeue pace.ready with
    | none =>
      have empty := order.dequeue_eq_none taken
      simpa [visit,taken] using
        (⟨kept.once.of_append_left,sequenced,kept.finished acyclic empty⟩ :
          done.Nodup ∧ Sequenced succ done ∧ ∀ i, i ∈ done)
    | some found =>
      obtain ⟨sources,after⟩ := kept.next taken
      simpa [visit,taken] using
        ih (by simp only [length_cons]; omega) after.settle ⟨sources,sequenced⟩

end

theorem Kept.mem_ready_iff (kept : Kept indegree done (outstanding succ done) pace) (i : ι) :
    i ∈ pace.ready ↔ Ready succ done i := by
  constructor
  · intro member
    refine ⟨fun visited => ?_,fun source edge => ?_⟩
    · exact (nodup_append.mp kept.once).2.2 i visited i member rfl
    · exact outstanding_eq_zero (kept.settled i (mem_append_right _ member)).1 edge
  · rintro ⟨fresh,sources⟩
    by_contra absent
    obtain ⟨source,unvisited,edge⟩ := exists_source (kept.waiting i (by simp [fresh,absent])).1
    exact unvisited (sources source edge)

theorem Kept.visit_preferred (prefers : Prefers order shaped before) (fuel : Nat)
    (kept : Kept indegree done (outstanding succ done) pace) (shape : shaped pace.ready)
    (preferred : Preferred succ before done) :
    Preferred succ before ((Countdown.visit order indegree succ fuel pace).reverse ++ done) := by
  induction fuel generalizing done pace with
  | zero => exact preferred
  | succ fuel ih =>
    cases taken : order.dequeue pace.ready with
    | none => simpa [Countdown.visit,taken] using preferred
    | some found =>
      obtain ⟨rest,least⟩ := prefers.dequeue _ _ _ shape taken
      have after : Kept indegree (found.1 :: done) (outstanding succ (found.1 :: done))
          (Countdown.settle order indegree ⟨found.2,pace.left⟩ (succ found.1)) := (kept.next taken).2.settle
      have chosen : ∀ other, Ready succ done other → before found.1 other :=
        fun other ready => least other ((kept.mem_ready_iff other).mpr ready)
      simpa [Countdown.visit,taken] using ih after (prefers.settle rest _) ⟨chosen,preferred⟩

end Countdown

end GraphEngine.Lib
