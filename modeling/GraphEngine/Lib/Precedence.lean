import Mathlib.Data.List.Chain
import Mathlib.Data.List.Nodup

/-! One element of a list stands before another one. The relation of a list without repetitions is a linear order of
its elements, and it is compatible with appending, mapping and flattening. -/

namespace GraphEngine.Lib
open List
variable {α β : Type*} {order xs ys : List α} {a b c : α}

def Precedes (order : List α) (a b : α) : Prop := [a,b].Sublist order

instance [DecidableEq α] : Decidable (Precedes order a b) := inferInstanceAs (Decidable ([a,b].Sublist order))

theorem precedes_cons : Precedes (c :: order) a b ↔ Precedes order a b ∨ a = c ∧ b ∈ order := by
  simp only [Precedes,cons_sublist_cons']
  constructor
  · rintro (later | ⟨same,single⟩)
    · exact .inl later
    · exact .inr ⟨same,singleton_sublist.mp single⟩
  · rintro (later | ⟨same,inside⟩)
    · exact .inl later
    · exact .inr ⟨same,singleton_sublist.mpr inside⟩

theorem not_precedes_nil : ¬Precedes [] a b := by
  simp [Precedes]

theorem precedes_append : Precedes (xs ++ ys) a b ↔ Precedes xs a b ∨ (a ∈ xs ∧ b ∈ ys) ∨ Precedes ys a b := by
  induction xs with
  | nil => simp [not_precedes_nil]
  | cons x xs ih =>
    rw [cons_append,precedes_cons,ih,precedes_cons,mem_append,mem_cons]
    constructor
    · rintro ((both | ⟨left,right⟩ | both) | ⟨same,right | right⟩)
      · exact .inl (.inl both)
      · exact .inr (.inl ⟨.inr left,right⟩)
      · exact .inr (.inr both)
      · exact .inl (.inr ⟨same,right⟩)
      · exact .inr (.inl ⟨.inl same,right⟩)
    · rintro ((both | ⟨same,right⟩) | ⟨same | left,right⟩ | both)
      · exact .inl (.inl both)
      · exact .inr ⟨same,.inl right⟩
      · exact .inr ⟨same,.inr right⟩
      · exact .inl (.inr (.inl ⟨left,right⟩))
      · exact .inl (.inr (.inr both))

namespace Precedes

theorem left (before : Precedes order a b) : a ∈ order := before.subset (by simp)

theorem right (before : Precedes order a b) : b ∈ order := before.subset (by simp)

theorem mono (sub : xs.Sublist ys) (before : Precedes xs a b) : Precedes ys a b := List.Sublist.trans before sub

theorem append_right (before : Precedes xs a b) (ys : List α) : Precedes (xs ++ ys) a b :=
  precedes_append.mpr (.inl before)

theorem across (left : a ∈ xs) (right : b ∈ ys) : Precedes (xs ++ ys) a b := precedes_append.mpr (.inr (.inl ⟨left,right⟩))

theorem map (f : α → β) (before : Precedes order a b) : Precedes (order.map f) (f a) (f b) :=
  List.Sublist.map f before

theorem of_map {f : α → β} {x y : β} (before : Precedes (order.map f) x y) : ∃ a b, Precedes order a b ∧ f a = x ∧ f b = y := by
  obtain ⟨pair,inside,same⟩ := sublist_map_iff.mp before
  match pair with
  | [a,b] =>
    injection same with first rest
    injection rest with second
    exact ⟨a,b,inside,first.symm,second.symm⟩

theorem ne (before : Precedes order a b) (nodup : order.Nodup) : a ≠ b := by
  have pair := nodup.sublist before
  simpa using pair

theorem asymm (before : Precedes order a b) (nodup : order.Nodup) : ¬Precedes order b a := by
  induction order with
  | nil => exact absurd before not_precedes_nil
  | cons c order ih =>
    obtain ⟨fresh,nodup⟩ := nodup_cons.mp nodup
    intro back
    rcases precedes_cons.mp before with forth | ⟨rfl,inside⟩
    · rcases precedes_cons.mp back with again | ⟨rfl,-⟩
      · exact ih forth nodup again
      · exact fresh forth.right
    · rcases precedes_cons.mp back with again | ⟨rfl,-⟩
      · exact fresh again.right
      · exact fresh inside

theorem trans (first : Precedes order a b) (second : Precedes order b c) (nodup : order.Nodup) : Precedes order a c := by
  induction order with
  | nil => exact absurd first not_precedes_nil
  | cons d order ih =>
    obtain ⟨fresh,nodup⟩ := nodup_cons.mp nodup
    rcases precedes_cons.mp first with ab | ⟨rfl,inside⟩
    · rcases precedes_cons.mp second with bc | ⟨rfl,-⟩
      · exact precedes_cons.mpr (.inl (ih ab bc nodup))
      · exact absurd ab.right fresh
    · rcases precedes_cons.mp second with bc | ⟨rfl,after⟩
      · exact precedes_cons.mpr (.inr ⟨rfl,bc.right⟩)
      · exact absurd inside fresh

theorem total (left : a ∈ order) (right : b ∈ order) : a = b ∨ Precedes order a b ∨ Precedes order b a := by
  induction order with
  | nil => cases left
  | cons c order ih =>
    rcases mem_cons.mp left with rfl | leftLater
    · rcases mem_cons.mp right with same | rightLater
      · exact .inl same.symm
      · exact .inr (.inl (precedes_cons.mpr (.inr ⟨rfl,rightLater⟩)))
    · rcases mem_cons.mp right with rfl | rightLater
      · exact .inr (.inr (precedes_cons.mpr (.inr ⟨rfl,leftLater⟩)))
      · rcases ih leftLater rightLater with same | before | after
        · exact .inl same
        · exact .inr (.inl (precedes_cons.mpr (.inl before)))
        · exact .inr (.inr (precedes_cons.mpr (.inl after)))

variable {front back : List α} {parts : List β} {f : β → List α}

theorem mem_front (before : Precedes (front ++ b :: back) a b) (nodup : (front ++ b :: back).Nodup) : a ∈ front := by
  have fresh : b ∉ front := fun inside => disjoint_of_nodup_append nodup inside (.head _)
  rcases precedes_append.mp before with both | ⟨left,-⟩ | both
  · exact absurd both.right fresh
  · exact left
  · obtain ⟨-,tail,-⟩ := nodup_append'.mp nodup
    have later := (nodup_cons.mp tail).1
    rcases precedes_cons.mp both with inside | ⟨-,inside⟩
    · exact absurd inside.right later
    · exact absurd inside later

theorem indices (before : Precedes order a b) : ∃ i j : Nat, i < j ∧ order[i]? = some a ∧ order[j]? = some b := by
  induction order with
  | nil => exact absurd before not_precedes_nil
  | cons c order ih =>
    rcases precedes_cons.mp before with later | ⟨rfl,inside⟩
    · obtain ⟨i,j,less,atI,atJ⟩ := ih later
      exact ⟨i + 1,j + 1,by omega,by simpa using atI,by simpa using atJ⟩
    · obtain ⟨j,atJ⟩ := mem_iff_getElem?.mp inside
      exact ⟨0,j + 1,by omega,by simp,by simpa using atJ⟩

theorem swap_blocks {left right : List α} (before : Precedes (front ++ (left ++ (right ++ back))) a b)
    (apart : ¬(a ∈ left ∧ b ∈ right)) : Precedes (front ++ (right ++ (left ++ back))) a b := by
  simp only [precedes_append,mem_append] at before ⊢
  rcases before with both | ⟨first,second⟩ | both | ⟨first,second⟩ | both | ⟨first,second⟩ | both
  · exact .inl both
  · exact .inr (.inl ⟨first,second.elim (fun x => .inr (.inl x)) fun x => x.imp_right .inr⟩)
  · exact .inr (.inr (.inr (.inr (.inl both))))
  · rcases second with inRight | inBack
    · exact absurd ⟨first,inRight⟩ apart
    · exact .inr (.inr (.inr (.inr (.inr (.inl ⟨first,inBack⟩)))))
  · exact .inr (.inr (.inl both))
  · exact .inr (.inr (.inr (.inl ⟨first,.inr second⟩)))
  · exact .inr (.inr (.inr (.inr (.inr (.inr both)))))

theorem of_flatMap (before : Precedes (parts.flatMap f) a b) :
    (∃ part ∈ parts, Precedes (f part) a b) ∨ ∃ p q, Precedes parts p q ∧ a ∈ f p ∧ b ∈ f q := by
  induction parts with
  | nil => exact absurd before not_precedes_nil
  | cons part parts ih =>
    rw [flatMap_cons] at before
    rcases precedes_append.mp before with inside | ⟨left,right⟩ | later
    · exact .inl ⟨part,.head _,inside⟩
    · obtain ⟨q,known,inside⟩ := mem_flatMap.mp right
      exact .inr ⟨part,q,precedes_cons.mpr (.inr ⟨rfl,known⟩),left,inside⟩
    · rcases ih later with ⟨p,known,inside⟩ | ⟨p,q,ordered,left,right⟩
      · exact .inl ⟨p,.tail _ known,inside⟩
      · exact .inr ⟨p,q,precedes_cons.mpr (.inl ordered),left,right⟩

theorem flatMap {p q : β} (ordered : Precedes parts p q) (left : a ∈ f p)
    (right : b ∈ f q) : Precedes (parts.flatMap f) a b := by
  induction parts with
  | nil => exact absurd ordered not_precedes_nil
  | cons part parts ih =>
    rw [flatMap_cons]
    rcases precedes_cons.mp ordered with ordered | ⟨rfl,known⟩
    · exact precedes_append.mpr (.inr (.inr (ih ordered)))
    · exact across left (mem_flatMap.mpr ⟨q,known,right⟩)

end Precedes

theorem part_unique {parts : List β} {f : β → List α} {p q : β} (nodup : (parts.flatMap f).Nodup) (knownP : p ∈ parts)
    (knownQ : q ∈ parts) (left : a ∈ f p) (right : a ∈ f q) : p = q := by
  rcases Precedes.total knownP knownQ with same | before | after
  · exact same
  · exact absurd rfl ((before.flatMap left right).ne nodup)
  · exact absurd rfl ((after.flatMap right left).ne nodup)

end GraphEngine.Lib
