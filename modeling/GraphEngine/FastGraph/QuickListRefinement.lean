import GraphEngine.FastGraph.QuickListRings

/-! The lists of the heap as plain lists of elements: each operation of the class is an operation on one of them. -/

namespace GraphEngine.FastGraph
open Lib Function List

variable {Addr Id : Type} {heap heap' : Heap Addr Id} {list : Id} {items front back : List Addr} {x dst : Addr}

abbrev Contents (Addr Id : Type) := Id → List Addr

structure Represents (heap : Heap Addr Id) (contents : Contents Addr Id) : Prop where
  rings : ∀ list, ListRing heap list (contents list)
  totalSize : ∀ list, heap.totalSize list = (contents list).length
  owner : ∀ list z, heap.owner z = some list ↔ z ∈ heap.head list :: contents list

variable {contents : Contents Addr Id} (rep : Represents heap contents)
include rep

theorem Represents.fresh (free : heap.owner x = none) (list : Id) : x ∉ heap.head list :: contents list := by
  intro inside
  rw [(rep.owner list x).mpr inside] at free
  cases free

/-- No other list has the elements of this one. -/
theorem Represents.outside {other : Id} (different : other ≠ list)
    (owned : heap.owner x = some other) : x ∉ heap.head list :: contents list := by
  intro inside
  rw [← rep.owner list x,owned] at inside
  exact different (Option.some.inj inside)

structure Changes (heap heap' : Heap Addr Id) (list : Id) : Prop where
  head : heap'.head = heap.head
  tail : ∀ other, other ≠ list → heap'.tail other = heap.tail other
  totalSize : ∀ other, other ≠ list → heap'.totalSize other = heap.totalSize other
  owner : ∀ other, other ≠ list → ∀ z, heap'.owner z = some other ↔ heap.owner z = some other
  links : ∀ other, other ≠ list → ∀ z, heap.owner z = some other → heap'.next z = heap.next z ∧ heap'.prev z = heap.prev z

variable [DecidableEq Id]

theorem Represents.change (changes : Changes heap heap' list)
    (ring : ListRing heap' list items) (size : heap'.totalSize list = items.length)
    (owner : ∀ z, heap'.owner z = some list ↔ z ∈ heap.head list :: items) :
    Represents heap' (update contents list items) := by
  refine ⟨?_,?_,?_⟩
  · intro other
    by_cases same : other = list
    · subst same
      rw [update_self]
      exact ring
    · rw [update_of_ne same]
      have old := rep.rings other
      have links := fun z inside => changes.links other same z ((rep.owner other z).mpr inside)
      refine ⟨?_,?_⟩
      · rw [changes.head]
        exact old.congr (fun z inside => (links z inside).1) fun z inside => (links z inside).2
      · rw [changes.tail other same,changes.head]
        exact old.tail
  · intro other
    by_cases same : other = list
    · subst same
      rw [update_self]
      exact size
    · rw [update_of_ne same,changes.totalSize other same]
      exact rep.totalSize other
  · intro other z
    rw [changes.head]
    by_cases same : other = list
    · subst same
      rw [update_self]
      exact owner z
    · rw [update_of_ne same,changes.owner other same]
      exact rep.owner other z

variable [DecidableEq Addr]

theorem Represents.adopt (shape : contents list = front ++ back)
    (free : heap.owner x = none) (links : LinksIn heap heap' list front x back) (mode : ListMode) :
    Represents (heap'.adopt list x mode) (update contents list (front ++ x :: back)) := by
  have ok := rep.rings list
  have fresh := rep.fresh free list
  rw [shape] at ok fresh
  have ring := links.joins.listRing ok fresh links.tail
  have free' : heap'.owner x = none := by rw [links.keeps.owner,free]
  refine rep.change ⟨links.joins.head,links.keeps.tail,?_,?_,?_⟩ ⟨ring.toHeadedRing,ring.tail⟩ ?_ ?_
  · intro other different
    change update heap'.totalSize list _ other = _
    rw [update_of_ne different,links.keeps.totalSize]
  · intro other different z
    change update heap'.owner x (some list) z = _ ↔ _
    by_cases same : z = x
    · subst same
      rw [update_self,free]
      simp [different.symm]
    · rw [update_of_ne same,links.keeps.owner]
  · intro other different z owned
    have apart : z ≠ x := by
      rintro rfl
      rw [free] at owned
      cases owned
    have outside := rep.outside different owned
    rw [shape] at outside
    constructor
    · rw [show (heap'.adopt list x mode).next z = _ from links.joins.next z,if_neg apart,if_neg]
      rintro rfl
      exact outside (before_known ..)
    · rw [show (heap'.adopt list x mode).prev z = _ from links.joins.prev z,if_neg apart,if_neg]
      rintro rfl
      exact outside (behind_known ..)
  · change update heap'.totalSize list (heap'.totalSize list + 1) list = _
    rw [update_self,links.keeps.totalSize,rep.totalSize,shape]
    simp only [length_append,length_cons]
    omega
  · intro z
    change update heap'.owner x (some list) z = _ ↔ _
    by_cases same : z = x
    · subst same
      simp
    · rw [update_of_ne same,links.keeps.owner,rep.owner,shape]
      simp [same]

omit rep

/-! The operations on plain lists. -/

def insertBeforeItem (pos x : Addr) : List Addr → List Addr
  | [] => [x]
  | item :: items => if item = pos then x :: item :: items else item :: insertBeforeItem pos x items

def insertAfterItem (pos x : Addr) : List Addr → List Addr
  | [] => [x]
  | item :: items => if item = pos then item :: x :: items else item :: insertAfterItem pos x items

def moveItem (src dst : Addr) (beforeFlag : Bool) (items : List Addr) : List Addr :=
  if src = dst then items
  else if beforeFlag then insertBeforeItem dst src (items.erase src)
  else insertAfterItem dst src (items.erase src)

theorem insertBeforeItem_split (outside : dst ∉ front) :
    insertBeforeItem dst x (front ++ dst :: back) = front ++ x :: dst :: back := by
  induction front with
  | nil => exact if_pos rfl
  | cons item front ih =>
    rw [mem_cons,not_or] at outside
    rw [cons_append,insertBeforeItem,if_neg (Ne.symm outside.1),ih outside.2]
    rfl

theorem insertAfterItem_split (outside : dst ∉ front) :
    insertAfterItem dst x (front ++ dst :: back) = front ++ dst :: x :: back := by
  induction front with
  | nil => exact if_pos rfl
  | cons item front ih =>
    rw [mem_cons,not_or] at outside
    rw [cons_append,insertAfterItem,if_neg (Ne.symm outside.1),ih outside.2]
    rfl

theorem insertBeforeItem_absent (outside : dst ∉ items) : insertBeforeItem dst x items = items ++ [x] := by
  induction items with
  | nil => rfl
  | cons item items ih =>
    rw [mem_cons,not_or] at outside
    rw [insertBeforeItem,if_neg (Ne.symm outside.1),ih outside.2]
    rfl

/-! The operations on the heap. -/

namespace Represents

variable (rep : Represents heap contents)
include rep

section

variable (free : heap.owner x = none)
include free

theorem pushBack (list : Id) (mode : ListMode) :
    Represents (heap.pushBack list x mode) (update contents list (contents list ++ [x])) := by
  exact rep.adopt (append_nil _).symm free (Heap.linkBack_spec (rep.rings list) (rep.fresh free list)) mode

theorem insert {pos : Addr}
    (place : heap.owner pos = some list) (mode : ListMode) : ∃ heap', heap.insert list pos x mode = some heap' ∧
      Represents heap' (update contents list (insertBeforeItem pos x (contents list))) := by
  have ok := rep.rings list
  have fresh := rep.fresh free list
  have first := ok.first.1
  have apart := (nodup_cons.mp ok.nodup).1
  unfold Heap.insert
  by_cases atBegin : heap.next (heap.head list) = some pos
  · obtain ⟨linked,result,links⟩ := Heap.insertFirst_spec ok fresh
    rw [if_pos atBegin,result]
    refine ⟨_,rfl,?_⟩
    have isFirst : behind (heap.head list) (contents list) = pos := Option.some.inj (first.symm.trans atBegin)
    have inserted : insertBeforeItem pos x (contents list) = [] ++ x :: contents list := by
      cases shape : contents list with
      | nil => rfl
      | cons b rest =>
        rw [shape] at isFirst
        exact if_pos isFirst
    rw [inserted]
    exact rep.adopt rfl free links mode
  · rw [if_neg atBegin]
    by_cases atEnd : pos = heap.head list
    · rw [if_pos atEnd]
      refine ⟨_,rfl,?_⟩
      rw [atEnd,insertBeforeItem_absent apart]
      exact rep.adopt (append_nil _).symm free (Heap.insertLast_spec ok fresh) mode
    · rw [if_neg atEnd]
      have inside : pos ∈ contents list := ((mem_cons.mp ((rep.owner list pos).mp place)).resolve_left atEnd)
      obtain ⟨front,back,shape⟩ := append_of_mem inside
      rw [shape] at ok fresh
      obtain ⟨linked,result,links⟩ := Heap.insertBefore_spec ok fresh
      rw [result]
      refine ⟨_,rfl,?_⟩
      rw [shape,insertBeforeItem_split ok.absent]
      exact rep.adopt shape free links mode

theorem pushFront (list : Id) (mode : ListMode) : ∃ heap', heap.pushFront list x mode = some heap' ∧
      Represents heap' (update contents list (x :: contents list)) := by
  obtain ⟨heap',result,rep'⟩ := rep.insert free ((rep.owner list _).mpr (behind_known _ [] _)) mode
  refine ⟨heap',by rw [Heap.pushFront,(rep.rings list).first.1]; exact result,?_⟩
  have inserted : insertBeforeItem (behind (heap.head list) (contents list)) x (contents list) = x :: contents list := by
    cases contents list with
    | nil => rfl
    | cons b rest => exact if_pos rfl
  rwa [inserted] at rep'

end

theorem reorder {heap₁ heap₂ : Heap Addr Id} (shape : (contents list).Perm (x :: (front ++ back)))
    (keeps₁ : Keeps heap heap₁ list) (head₁ : heap₁.head = heap.head)
    (others : ∀ z, z ∉ heap.head list :: (front ++ back) → heap₁.next z = heap.next z ∧ heap₁.prev z = heap.prev z)
    (ring : ListRing heap₁ list (front ++ back)) (links : LinksIn heap₁ heap₂ list front x back) :
    Represents heap₂ (update contents list (front ++ x :: back)) := by
  have nodup := (nodup_cons.mp (rep.rings list).nodup)
  have fresh : x ∉ heap₁.head list :: (front ++ back) := by
    rw [head₁,mem_cons,not_or]
    constructor
    · rintro rfl
      exact nodup.1 (shape.mem_iff.mpr mem_cons_self)
    · exact (nodup_cons.mp (shape.nodup_iff.mp nodup.2)).1
  have members : ∀ z, z ∈ front ++ x :: back ↔ z ∈ contents list := by
    intro z
    rw [shape.mem_iff,perm_middle.mem_iff]
  have owners : heap₂.owner = heap.owner := links.keeps.owner.trans keeps₁.owner
  have sizes : heap₂.totalSize = heap.totalSize := links.keeps.totalSize.trans keeps₁.totalSize
  refine rep.change ⟨links.joins.head.trans head₁,?_,?_,?_,?_⟩ (links.joins.listRing ring fresh links.tail) ?_ ?_
  · intro other different
    rw [links.keeps.tail other different,keeps₁.tail other different]
  · intro other _
    rw [sizes]
  · intro other _ z
    rw [owners]
  · intro other different z owned
    have outside := rep.outside different owned
    have away : z ∉ heap.head list :: (front ++ back) := by
      intro inside
      apply outside
      rcases mem_cons.mp inside with same | inside
      · rw [same]
        exact mem_cons_self
      · exact mem_cons_of_mem _ (shape.mem_iff.mpr (mem_cons_of_mem _ inside))
    have apart : z ≠ x := by
      rintro rfl
      exact outside (mem_cons_of_mem _ (shape.mem_iff.mpr mem_cons_self))
    rw [links.joins.next,links.joins.prev,if_neg apart,if_neg apart,head₁,if_neg,if_neg]
    · exact others z away
    · rintro rfl
      exact away (behind_known ..)
    · rintro rfl
      exact away (before_known ..)
  · rw [sizes,rep.totalSize,shape.length_eq]
    simp only [length_append,length_cons]
    omega
  · intro z
    rw [owners,rep.owner,mem_cons,mem_cons,members]

theorem move {src dst : Addr} (isSrc : src ∈ contents list) (isDst : dst ∈ contents list)
    (different : src ≠ dst) (beforeFlag : Bool) : ∃ heap', heap.move list src dst beforeFlag = some heap' ∧
      Represents heap' (update contents list (moveItem src dst beforeFlag (contents list))) := by
  obtain ⟨front,back,shape⟩ := append_of_mem isSrc
  have ok := rep.rings list
  rw [shape] at ok isDst
  have erased : (contents list).erase src = front ++ back := by rw [shape,ok.erase_eq]
  obtain ⟨detached,result₁,ring,keeps,head,nexts,prevs⟩ := Heap.detach_spec ok
  have others : ∀ z, z ∉ heap.head list :: (front ++ back) →
      detached.next z = heap.next z ∧ detached.prev z = heap.prev z := by
    intro z outside
    rw [nexts,prevs,update_of_ne,update_of_ne]
    · exact ⟨rfl,rfl⟩
    · rintro rfl
      exact outside (behind_known ..)
    · rintro rfl
      exact outside (before_known ..)
  have remains : dst ∈ front ++ back := by
    rw [perm_middle.mem_iff,mem_cons] at isDst
    exact isDst.resolve_left (Ne.symm different)
  obtain ⟨left,right,split⟩ := append_of_mem remains
  have perm : (contents list).Perm (src :: (front ++ back)) := by
    rw [shape]
    exact perm_middle
  rw [split] at ring others perm
  have unique := ring.absent
  rw [moveItem,if_neg different,erased,split,Heap.move,result₁]
  cases beforeFlag with
  | true =>
    obtain ⟨heap',result₂,links⟩ := Heap.attachBefore_spec ring src
    rw [if_pos rfl,insertBeforeItem_split unique]
    exact ⟨heap',result₂,rep.reorder perm keeps head others ring links⟩
  | false =>
    obtain ⟨heap',result₂,links⟩ := Heap.attachAfter_spec ring src
    have cut : left ++ dst :: right = (left ++ [dst]) ++ right := by rw [append_assoc,singleton_append]
    rw [cut] at ring others perm
    rw [if_neg Bool.false_ne_true,insertAfterItem_split unique]
    refine ⟨heap',result₂,?_⟩
    have moved := rep.reorder perm keeps head others ring links
    rwa [append_assoc,singleton_append] at moved

theorem release (inside : x ∈ contents list) :
    ∃ heap', heap.erase list x = some (heap',0) ∧ Represents heap' (update contents list ((contents list).erase x)) ∧
      heap'.owner x = none ∧ heap'.head = heap.head := by
  obtain ⟨front,back,shape⟩ := append_of_mem inside
  have ok := rep.rings list
  rw [shape] at ok
  have erased : (contents list).erase x = front ++ back := by rw [shape,ok.erase_eq]
  have owned : heap.owner x = some list := (rep.owner list x).mpr (mem_cons_of_mem _ inside)
  obtain ⟨heap',result,ring,head,tails,owners,sizes,others⟩ := Heap.release_spec ok
  refine ⟨heap',?_,?_,by rw [owners]; exact update_self ..,head⟩
  · rw [Heap.erase,if_neg (not_not.mpr owned),ok.neighbours.1.2]
    simp only [result,Option.map_some]
  · rw [erased]
    refine rep.change ⟨head,tails,?_,?_,?_⟩ ring ?_ ?_
    · intro other different
      rw [sizes,update_of_ne different]
    · intro other different z
      rw [owners]
      by_cases same : z = x
      · subst same
        rw [update_self,owned]
        simp [different.symm]
      · rw [update_of_ne same]
    · intro other different z ownedZ
      apply others z
      rw [← shape]
      exact rep.outside different ownedZ
    · rw [sizes,update_self,rep.totalSize,shape]
      simp only [length_append,length_cons]
      omega
    · intro z
      rw [owners]
      by_cases same : z = x
      · subst same
        rw [update_self]
        simp only [reduceCtorEq,false_iff]
        exact ok.away
      · rw [update_of_ne same,rep.owner,shape]
        simp [same]

theorem erase (notHead : x ≠ heap.head list) : ∃ heap' status, heap.erase list x = some (heap',status) ∧
      Represents heap' (update contents list ((contents list).erase x)) := by
  by_cases inside : x ∈ contents list
  · obtain ⟨heap',result,rep',-⟩ := rep.release inside
    exact ⟨heap',0,result,rep'⟩
  · have foreign : heap.owner x ≠ some list := by
      rw [Ne,rep.owner,mem_cons,not_or]
      exact ⟨notHead,inside⟩
    refine ⟨heap,-1,if_pos foreign,?_⟩
    rwa [erase_of_not_mem inside,update_eq_self]

theorem eraseAt (inside : x ∈ contents list) : ∃ heap', heap.eraseAt list x = some (heap',heap.next x) ∧
      Represents heap' (update contents list ((contents list).erase x)) ∧ heap'.owner x = none ∧
      heap'.head = heap.head := by
  obtain ⟨heap',result,rep'⟩ := rep.release inside
  refine ⟨heap',?_,rep'⟩
  rw [Heap.eraseAt,result]
  rfl

end Represents
end GraphEngine.FastGraph
