import Mathlib.Data.List.Chain
import Mathlib.Data.List.Nodup

/-! Rings of doubly linked elements. A ring may be read from any of its elements, so that linking in and taking out are
proved for its end only; a ring with a head is a list. -/

namespace GraphEngine.Lib
open List
variable {α : Type*} {next prev next' prev' : α → Option α} {xs ys front mid : List α} {a b x : α}

def Linked (next prev : α → Option α) (a b : α) : Prop := next a = some b ∧ prev b = some a

def Ring (next prev : α → Option α) : List α → Prop
  | [] => True
  | a :: xs => List.IsChain (Linked next prev) (a :: xs ++ [a])

theorem ring_cons : Ring next prev (a :: xs) ↔ List.IsChain (Linked next prev) (a :: (xs ++ [a])) := .rfl

theorem isChain_transport {R S : α → α → Prop} (chain : xs.IsChain R)
    (moves : ∀ a ∈ xs.dropLast, ∀ b ∈ xs.tail, R a b → S a b) : xs.IsChain S := by
  induction xs with
  | nil => exact .nil
  | cons a xs ih =>
    cases xs with
    | nil => exact .singleton a
    | cons b xs =>
      rw [isChain_cons_cons] at chain ⊢
      refine ⟨moves a mem_cons_self b mem_cons_self chain.1,ih chain.2 ?_⟩
      intro c front d back
      exact moves c (mem_cons_of_mem _ front) d (mem_cons_of_mem _ back)

namespace Ring

theorem rotate (ring : Ring next prev (xs ++ ys)) : Ring next prev (ys ++ xs) := by
  cases xs with
  | nil => rwa [append_nil]
  | cons a xs =>
    cases ys with
    | nil =>
      rw [append_nil] at ring
      exact ring
    | cons b ys =>
      rw [cons_append,ring_cons,append_assoc,cons_append,← cons_append,isChain_split] at ring ⊢
      exact ring.symm

theorem iff_closed (shape : b :: mid = front ++ [a]) :
    Ring next prev (b :: mid) ↔ List.IsChain (Linked next prev) (b :: mid) ∧ Linked next prev a b := by
  rw [ring_cons,← cons_append,shape,append_assoc,singleton_append,isChain_split,isChain_pair]

theorem closes (shape : b :: mid = front ++ [a]) (ring : Ring next prev (b :: mid)) : Linked next prev a b :=
  ((iff_closed shape).mp ring).2

theorem congr (ring : Ring next prev xs) (nexts : ∀ z ∈ xs, next' z = next z) (prevs : ∀ z ∈ xs, prev' z = prev z) :
    Ring next' prev' xs := by
  cases xs with
  | nil => trivial
  | cons b mid =>
    have member : ∀ z ∈ b :: (mid ++ [b]), z ∈ b :: mid := by
      exact forall_mem_cons.mpr ⟨mem_cons_self,forall_mem_append.mpr ⟨fun _ => mem_cons_of_mem _,
        forall_mem_singleton.mpr mem_cons_self⟩⟩
    apply isChain_transport (ring_cons.mp ring)
    intro u isU v isV linked
    refine ⟨?_,?_⟩
    · rw [nexts u (member u (dropLast_subset _ isU))]
      exact linked.1
    · rw [prevs v (member v (mem_of_mem_tail isV))]
      exact linked.2

variable (shape : b :: mid = front ++ [a]) (nodup : (b :: mid).Nodup) (nexts : ∀ z ∈ b :: mid, z ≠ a → next' z = next z)
  (prevs : ∀ z ∈ b :: mid, z ≠ b → prev' z = prev z)
include shape nodup nexts prevs

private theorem inside (chain : List.IsChain (Linked next prev) (b :: mid)) : List.IsChain (Linked next' prev') (b :: mid) := by
  apply isChain_transport chain
  intro u isU v isV linked
  have knownU := dropLast_subset _ isU
  have knownV := mem_of_mem_tail isV
  refine ⟨?_,?_⟩
  · rw [nexts u knownU]
    · exact linked.1
    · intro same
      rw [shape] at nodup isU
      rw [dropLast_concat,same] at isU
      exact (nodup_append.mp nodup).2.2 a isU a mem_cons_self rfl
  · rw [prevs v knownV]
    · exact linked.2
    · intro same
      rw [same] at isV
      exact (nodup_cons.mp nodup).1 isV

theorem insert (ring : Ring next prev (b :: mid)) (first : Linked next' prev' a x) (second : Linked next' prev' x b) :
    Ring next' prev' (b :: mid ++ [x]) := by
  have chain := inside shape nodup nexts prevs ((iff_closed shape).mp ring).1
  have longer : b :: (mid ++ [x]) = (b :: mid) ++ [x] := rfl
  rw [cons_append,iff_closed longer]
  refine ⟨?_,second⟩
  rw [longer,shape,append_assoc,singleton_append,isChain_split,isChain_pair,← shape]
  exact ⟨chain,first⟩

theorem remove (ring : Ring next prev (x :: b :: mid)) (closed : Linked next' prev' a b) : Ring next' prev' (b :: mid) := by
  rw [iff_closed shape]
  refine ⟨?_,closed⟩
  have chain := (ring_cons.mp ring).tail
  rw [tail_cons] at chain
  exact inside shape nodup nexts prevs (isChain_append.mp chain).1

end Ring

def before (head : α) (front : List α) : α := front.getLast?.getD head

def behind (head : α) (back : List α) : α := back.head?.getD head

variable {head : α} {items back : List α}

theorem before_shape (head : α) (front : List α) : ∃ rest, head :: front = rest ++ [before head front] := by
  cases last : front.getLast? with
  | none =>
    rw [getLast?_eq_none_iff] at last
    exact ⟨[],by rw [last]; rfl⟩
  | some a =>
    obtain ⟨rest,shape⟩ := getLast?_eq_some_iff.mp last
    exact ⟨head :: rest,by rw [before,last,shape]; rfl⟩

theorem before_concat : before head (front ++ [x]) = x := by
  rw [before,getLast?_concat]
  rfl

theorem rotated_shape (head : α) (front back : List α) : ∃ mid rest,
    back ++ head :: front = behind head back :: mid ∧ behind head back :: mid = rest ++ [before head front] := by
  obtain ⟨rest,shape⟩ := before_shape head front
  cases back with
  | nil => exact ⟨front,rest,rfl,shape⟩
  | cons b back => exact ⟨back ++ head :: front,b :: back ++ rest,rfl,by rw [shape]; simp [behind]⟩

theorem before_mem (head : α) (front : List α) : before head front ∈ head :: front := by
  obtain ⟨rest,shape⟩ := before_shape head front
  rw [shape]
  exact mem_append_right _ mem_cons_self

theorem before_known (head : α) (front back : List α) : before head front ∈ head :: (front ++ back) := by
  rw [← cons_append]
  exact mem_append_left _ (before_mem head front)

theorem behind_known (head : α) (front back : List α) : behind head back ∈ head :: (front ++ back) := by
  cases back with
  | nil => exact mem_cons_self
  | cons b back => simp [behind]

structure HeadedRing (next prev : α → Option α) (head : α) (items : List α) : Prop where
  ring : Ring next prev (head :: items)
  nodup : (head :: items).Nodup

namespace HeadedRing

theorem rotated (ok : HeadedRing next prev head (front ++ back)) :
    Ring next prev (back ++ head :: front) ∧ (back ++ head :: front).Nodup := by
  obtain ⟨ring,nodup⟩ := ok
  rw [← cons_append] at ring nodup
  exact ⟨ring.rotate,nodup_append_comm.mp nodup⟩

theorem linked (ok : HeadedRing next prev head (front ++ back)) : Linked next prev (before head front) (behind head back) := by
  obtain ⟨mid,rest,first,last⟩ := rotated_shape head front back
  have ring := ok.rotated.1
  rw [first] at ring
  exact ring.closes last

theorem first (ok : HeadedRing next prev head items) : Linked next prev head (behind head items) := by
  rw [← nil_append items] at ok
  exact ok.linked

theorem last (ok : HeadedRing next prev head items) : Linked next prev (before head items) head := by
  rw [← append_nil items] at ok
  exact ok.linked

section

variable (ok : HeadedRing next prev head (front ++ x :: back))
include ok

theorem neighbours : Linked next prev (before head front) x ∧ Linked next prev x (behind head back) := by
  have left := ok.linked
  rw [append_cons] at ok
  have right := ok.linked
  rw [before_concat] at right
  exact ⟨left,right⟩

theorem away : x ∉ head :: (front ++ back) := by
  have nodup := ok.rotated.2
  rw [cons_append] at nodup
  intro inside
  apply (nodup_cons.mp nodup).1
  simp only [mem_cons,mem_append] at inside ⊢
  tauto

theorem absent : x ∉ front :=
  fun again => ok.away (mem_cons_of_mem _ (mem_append_left _ again))

end

theorem congr (ok : HeadedRing next prev head items) (nexts : ∀ z ∈ head :: items, next' z = next z)
    (prevs : ∀ z ∈ head :: items, prev' z = prev z) : HeadedRing next' prev' head items :=
  ⟨ok.ring.congr nexts prevs,ok.nodup⟩

variable [DecidableEq α]

theorem erase_eq (ok : HeadedRing next prev head (front ++ x :: back)) : (front ++ x :: back).erase x = front ++ back := by
  rw [erase_append_right _ ok.absent,erase_cons_head]

/-- An element is linked in between two neighbours. -/
theorem join (ok : HeadedRing next prev head (front ++ back)) (fresh : x ∉ head :: (front ++ back))
    (nexts : ∀ z, next' z = if z = x then some (behind head back) else if z = before head front then some x else next z)
    (prevs : ∀ z, prev' z = if z = x then some (before head front) else if z = behind head back then some x else prev z) :
    HeadedRing next' prev' head (front ++ x :: back) := by
  obtain ⟨mid,rest,first,last⟩ := rotated_shape head front back
  obtain ⟨ring,nodup⟩ := ok.rotated
  have away : x ∉ back ++ head :: front := by
    intro inside
    apply fresh
    simp only [mem_cons,mem_append] at inside ⊢
    tauto
  rw [first] at ring nodup away
  have apart : ∀ z ∈ behind head back :: mid, z ≠ x := fun z inside same => away (same ▸ inside)
  have apartA : before head front ≠ x := fun same => fresh (same ▸ before_known ..)
  have joined : Ring next' prev' (behind head back :: mid ++ [x]) := by
    apply ring.insert last nodup
    · intro z inside notA
      rw [nexts,if_neg (apart z inside),if_neg notA]
    · intro z inside notB
      rw [prevs,if_neg (apart z inside),if_neg notB]
    · exact ⟨by rw [nexts,if_neg apartA,if_pos rfl],by rw [prevs,if_pos rfl]⟩
    · exact ⟨by rw [nexts,if_pos rfl],by rw [prevs,if_neg (apart _ mem_cons_self),if_pos rfl]⟩
  rw [← first,append_assoc] at joined
  refine ⟨by simpa using joined.rotate,?_⟩
  have perm : (head :: (front ++ x :: back)).Perm (x :: (head :: (front ++ back))) :=
    (perm_middle.cons _).trans (.swap ..)
  exact perm.nodup_iff.mpr (nodup_cons.mpr ⟨fresh,ok.nodup⟩)

/-- The neighbours of an element are linked to each other; the pointers of the element itself do not matter. -/
theorem part (ok : HeadedRing next prev head (front ++ x :: back))
    (nexts : ∀ z, z ≠ x → next' z = if z = before head front then some (behind head back) else next z)
    (prevs : ∀ z, z ≠ x → prev' z = if z = behind head back then some (before head front) else prev z) :
    HeadedRing next' prev' head (front ++ back) := by
  obtain ⟨mid,rest,first,last⟩ := rotated_shape head front back
  obtain ⟨ring,nodup⟩ := ok.rotated
  rw [cons_append,first] at ring nodup
  obtain ⟨away,nodup⟩ := nodup_cons.mp nodup
  have apart : ∀ z ∈ behind head back :: mid, z ≠ x := fun z inside same => away (same ▸ inside)
  have apartA : before head front ≠ x := fun same => ok.away (same ▸ before_known ..)
  have parted : Ring next' prev' (behind head back :: mid) := by
    apply ring.remove last nodup
    · intro z inside notA
      rw [nexts z (apart z inside),if_neg notA]
    · intro z inside notB
      rw [prevs z (apart z inside),if_neg notB]
    · exact ⟨by rw [nexts _ apartA,if_pos rfl],by rw [prevs _ (apart _ mem_cons_self),if_pos rfl]⟩
  rw [← first] at parted nodup
  exact ⟨parted.rotate,nodup_append_comm.mp nodup⟩

end HeadedRing
end GraphEngine.Lib
