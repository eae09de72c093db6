import GraphEngine.Lib.LinkedRing
import GraphEngine.FastGraph.QuickList

/-! What the pointer operations do to the ring of one list. -/

namespace GraphEngine.FastGraph
open Lib Function List

variable {Addr Id : Type} {heap heap' : Heap Addr Id} {list : Id} {items front back : List Addr} {x a b : Addr}

/-- The pointers of one list: the head and the elements form a ring, and the tail is the last of them. -/
structure ListRing (heap : Heap Addr Id) (list : Id) (items : List Addr) : Prop
    extends HeadedRing heap.next heap.prev (heap.head list) items where
  tail : heap.tail list = items.getLast?.getD (heap.head list)

theorem ListRing.tail_eq_head_iff (ok : ListRing heap list items) : heap.tail list = heap.head list ↔ items = [] := by
  rw [ok.tail]
  constructor
  · intro same
    cases last : items.getLast? with
    | none => exact getLast?_eq_none_iff.mp last
    | some a =>
      rw [last] at same
      have inside : heap.head list ∈ items := same ▸ mem_of_getLast? last
      exact absurd inside (nodup_cons.mp ok.nodup).1
  · rintro rfl
    rfl

theorem ListRing.tail_eq_iff (ok : ListRing heap list (front ++ x :: back)) : heap.tail list = x ↔ back = [] := by
  rw [ok.tail]
  constructor
  · intro same
    cases last : back.getLast? with
    | none => exact getLast?_eq_none_iff.mp last
    | some a =>
      rw [getLast?_append,getLast?_cons,last] at same
      have isA : a = x := same
      exact absurd (mem_append_right _ (isA ▸ mem_of_getLast? last))
        (fun inside => ok.away (mem_cons_of_mem _ inside))
  · rintro rfl
    exact before_concat

/-- The tail after an element is linked in or taken out before `back`. -/
theorem last_cons (head : Addr) (front back : List Addr) (x : Addr) : (front ++ x :: back).getLast?.getD head =
    if back = [] then x else (front ++ back).getLast?.getD head := by
  cases back with
  | nil => simp
  | cons b back => simp [getLast?_append,getLast?_cons]

section Tails
variable [DecidableEq Id]

/-- A tail that is set in one case only. -/
theorem update_if {p q : Prop} [Decidable p] [Decidable q] (same : p ↔ q) (tail : Id → Addr) (list : Id) (value : Addr) :
    ((if p then update tail list value else tail) list = if q then value else tail list) ∧
    ∀ other, other ≠ list → (if p then update tail list value else tail) other = tail other := by
  simp only [← same]
  split
  · exact ⟨update_self ..,fun other different => update_of_ne different ..⟩
  · exact ⟨rfl,fun _ _ => rfl⟩

theorem Heap.ite_setTail (heap : Heap Addr Id) (p : Prop) [Decidable p] (list : Id) (value : Addr) :
    (if p then heap.setTail list value else heap) =
      { heap with tail := if p then update heap.tail list value else heap.tail } := by
  split <;> rfl

end Tails

variable [DecidableEq Addr]

structure Joins (heap heap' : Heap Addr Id) (a x b : Addr) : Prop where
  next : ∀ z, heap'.next z = if z = x then some b else if z = a then some x else heap.next z
  prev : ∀ z, heap'.prev z = if z = x then some a else if z = b then some x else heap.prev z
  head : heap'.head = heap.head

theorem Joins.listRing (joins : Joins heap heap' (before (heap.head list) front) x (behind (heap.head list) back))
    (ok : ListRing heap list (front ++ back)) (fresh : x ∉ heap.head list :: (front ++ back))
    (tail : heap'.tail list = if back = [] then x else heap.tail list) : ListRing heap' list (front ++ x :: back) := by
  refine ⟨?_,?_⟩
  · rw [joins.head]
    exact ok.join fresh joins.next joins.prev
  · rw [tail,joins.head,last_cons,ok.tail]

structure Parts (heap heap' : Heap Addr Id) (a x b : Addr) : Prop where
  next : ∀ z, z ≠ x → heap'.next z = if z = a then some b else heap.next z
  prev : ∀ z, z ≠ x → heap'.prev z = if z = b then some a else heap.prev z
  head : heap'.head = heap.head

theorem ListRing.part_list (ok : ListRing heap list (front ++ x :: back))
    (parts : Parts heap heap' (before (heap.head list) front) x (behind (heap.head list) back))
    (tail : heap'.tail list = if back = [] then before (heap.head list) front else heap.tail list) :
    ListRing heap' list (front ++ back) := by
  refine ⟨?_,?_⟩
  · rw [parts.head]
    exact ok.part parts.next parts.prev
  · rw [tail,parts.head,ok.tail,last_cons]
    split
    · next last => rw [last,append_nil,before]
    · rfl

structure Keeps (heap heap' : Heap Addr Id) (list : Id) : Prop where
  tail : ∀ other, other ≠ list → heap'.tail other = heap.tail other
  owner : heap'.owner = heap.owner
  totalSize : heap'.totalSize = heap.totalSize

structure LinksIn (heap heap' : Heap Addr Id) (list : Id) (front : List Addr) (x : Addr) (back : List Addr) : Prop where
  joins : Joins heap heap' (before (heap.head list) front) x (behind (heap.head list) back)
  keeps : Keeps heap heap' list
  tail : heap'.tail list = if back = [] then x else heap.tail list

theorem Joins.of_update (next : heap'.next = update (update heap.next a (some x)) x (some b))
    (prev : heap'.prev = update (update heap.prev b (some x)) x (some a))
    (head : heap'.head = heap.head) : Joins heap heap' a x b := by
  refine ⟨?_,?_,head⟩
  · intro z
    rw [next,update_apply,update_apply]
  · intro z
    rw [prev,update_apply,update_apply]

variable [DecidableEq Id]

namespace Heap

section Links
variable (ok : ListRing heap list items) (fresh : x ∉ heap.head list :: items)
include ok fresh

theorem linkBack_spec : LinksIn heap (heap.linkBack list x) list items x [] := by
  have tail : heap.tail list = before (heap.head list) items := ok.tail
  have apart : x ≠ heap.head list := fun same => fresh (same ▸ mem_cons_self)
  refine ⟨.of_update ?_ ?_ rfl,⟨fun other different => update_of_ne different ..,rfl,rfl⟩,update_self ..⟩
  · rw [← tail]
    rfl
  · rw [← tail]
    exact update_comm apart ..

theorem insertLast_spec : LinksIn heap (heap.insertLast list x) list items x [] := by
  have tail : heap.tail list = before (heap.head list) items := ok.tail
  have apart : x ≠ heap.tail list := by
    rw [tail]
    exact fun same => fresh (same ▸ before_mem ..)
  have apartHead : x ≠ heap.head list := fun same => fresh (same ▸ mem_cons_self)
  have linked := linkBack_spec ok fresh
  refine ⟨.of_update ?_ ?_ rfl,⟨linked.keeps.tail,rfl,rfl⟩,linked.tail⟩
  · change update (update heap.next x (heap.next (heap.tail list))) (heap.tail list) (some x) = _
    rw [tail,ok.last.1,← tail]
    exact update_comm apart ..
  · rw [← tail]
    exact update_comm apartHead ..

theorem insertFirst_spec : ∃ heap', heap.insertFirst list x = some heap' ∧ LinksIn heap heap' list [] x items := by
  have apart : x ≠ behind (heap.head list) items := by
    rintro rfl
    exact fresh (behind_known _ [] _)
  obtain ⟨tail,others⟩ := update_if ok.tail_eq_head_iff heap.tail list x
  refine ⟨_,by rw [insertFirst,ok.first.1]; rfl,?_⟩
  rw [ite_setTail]
  exact ⟨.of_update rfl (update_comm apart ..) rfl,⟨others,rfl,rfl⟩,tail⟩

end Links

omit [DecidableEq Id] in
theorem insertBefore_spec {cur : Addr} (ok : ListRing heap list (front ++ cur :: back))
    (fresh : x ∉ heap.head list :: (front ++ cur :: back)) :
    ∃ heap', heap.insertBefore cur x = some heap' ∧ LinksIn heap heap' list front x (cur :: back) := by
  have apartBefore : x ≠ before (heap.head list) front := by
    rintro rfl
    exact fresh (before_known ..)
  have apartCur : x ≠ cur := by
    rintro rfl
    exact fresh (by simp)
  refine ⟨_,by rw [insertBefore,ok.neighbours.1.2]; rfl,?_⟩
  refine ⟨.of_update ?_ ?_ rfl,⟨fun _ _ => rfl,rfl,rfl⟩,(if_neg (cons_ne_nil _ _)).symm⟩
  · exact update_comm apartBefore ..
  · exact update_comm apartCur ..

omit [DecidableEq Id] in
theorem attachBefore_spec {dst : Addr} (ok : ListRing heap list (front ++ dst :: back)) (x : Addr) :
    ∃ heap', heap.attachBefore x dst = some heap' ∧ LinksIn heap heap' list front x (dst :: back) := by
  refine ⟨_,by rw [attachBefore,ok.neighbours.1.2]; rfl,?_⟩
  exact ⟨.of_update rfl rfl rfl,⟨fun _ _ => rfl,rfl,rfl⟩,(if_neg (cons_ne_nil _ _)).symm⟩

section Element
variable (ok : ListRing heap list (front ++ x :: back))
include ok

theorem attachAfter_spec (y : Addr) :
    ∃ heap', heap.attachAfter list y x = some heap' ∧ LinksIn heap heap' list (front ++ [x]) y back := by
  obtain ⟨tail,others⟩ := update_if ok.tail_eq_iff heap.tail list y
  refine ⟨_,by rw [attachAfter,ok.neighbours.2.1]; rfl,?_⟩
  rw [ite_setTail]
  refine ⟨?_,⟨others,rfl,rfl⟩,tail⟩
  rw [before_concat]
  exact .of_update rfl rfl rfl

theorem detach_spec : ∃ heap', heap.detach list x = some heap' ∧ ListRing heap' list (front ++ back) ∧ Keeps heap heap' list ∧
    heap'.head = heap.head ∧ heap'.next = update heap.next (before (heap.head list) front) (some (behind (heap.head list) back)) ∧
    heap'.prev = update heap.prev (behind (heap.head list) back) (some (before (heap.head list) front)) := by
  obtain ⟨prev,next⟩ := ok.neighbours
  obtain ⟨tail,others⟩ := update_if ok.tail_eq_iff heap.tail list (before (heap.head list) front)
  refine ⟨_,by rw [detach,next.1,prev.2]; rfl,?_⟩
  rw [ite_setTail]
  refine ⟨ok.part_list ⟨?_,?_,rfl⟩ tail,⟨others,rfl,rfl⟩,rfl,rfl,rfl⟩
  all_goals exact fun z _ => update_apply ..

theorem release_spec :
    ∃ heap', heap.release list x (before (heap.head list) front) = some heap' ∧ ListRing heap' list (front ++ back) ∧
      heap'.head = heap.head ∧ (∀ other, other ≠ list → heap'.tail other = heap.tail other) ∧
      heap'.owner = update heap.owner x none ∧
      heap'.totalSize = update heap.totalSize list (heap.totalSize list - 1) ∧
      ∀ z, z ∉ heap.head list :: (front ++ x :: back) → heap'.next z = heap.next z ∧ heap'.prev z = heap.prev z := by
  obtain ⟨tail,others⟩ := update_if ok.tail_eq_iff heap.tail list (before (heap.head list) front)
  refine ⟨_,by rw [release,ite_setTail]; change (heap.next x).bind _ = _; rw [ok.neighbours.2.1]; rfl,?_⟩
  refine ⟨ok.part_list ⟨?_,?_,rfl⟩ tail,rfl,others,rfl,rfl,?_⟩
  · intro z other
    change update (update heap.next x none) _ _ z = _
    rw [update_apply,update_of_ne other]
  · intro z other
    change update (update heap.prev x none) _ _ z = _
    rw [update_apply,update_of_ne other]
  · intro z outside
    have apart : z ≠ x := by
      rintro rfl
      exact outside (by simp)
    refine ⟨?_,?_⟩
    · change update (update heap.next x none) _ _ z = _
      rw [update_of_ne,update_of_ne apart]
      rintro rfl
      exact outside (before_known ..)
    · change update (update heap.prev x none) _ _ z = _
      rw [update_of_ne,update_of_ne apart]
      rintro rfl
      have known := behind_known (heap.head list) (front ++ [x]) back
      rw [append_assoc] at known
      exact outside known

end Element

end Heap
end GraphEngine.FastGraph
