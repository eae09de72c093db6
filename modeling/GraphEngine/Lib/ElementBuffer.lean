import Mathlib.Data.List.Basic
import Mathlib.Tactic.Ring

/-! A buffer of elements that all take the same number of cells, and loops that write one element after the other. -/

namespace GraphEngine.Lib.ElementBuffer

open List

variable {β : Type} {size items : Nat} {buffer piece : List β}

def element (size : Nat) (buffer : List β) (i : Nat) : List β := (buffer.drop (i * size)).take size

def overwrite (buffer : List β) (offset : Nat) (piece : List β) : List β :=
  buffer.take offset ++ piece ++ buffer.drop (offset + piece.length)

variable {i offset k j : Nat}

theorem cell_bound (bound : i < items) : i * size + size ≤ items * size := by
  rw [← Nat.succ_mul]
  exact Nat.mul_le_mul_right size bound

theorem length_element (whole : buffer.length = items * size) (bound : i < items) :
    (element size buffer i).length = size := by
  have : i * size + size ≤ items * size := cell_bound bound
  rw [element,length_take,length_drop,whole]
  omega

theorem element_replicate (value : β) (bound : i < items) :
    element size (List.replicate (items * size) value) i = List.replicate size value := by
  have : i * size + size ≤ items * size := cell_bound bound
  rw [element,drop_replicate,take_replicate]
  congr 1
  omega

theorem length_overwrite (fits : offset + piece.length ≤ buffer.length) :
    (overwrite buffer offset piece).length = buffer.length := by
  simp only [overwrite,length_append,length_take,length_drop]
  omega

theorem getElem?_overwrite (fits : offset + piece.length ≤ buffer.length) : (overwrite buffer offset piece)[k]? =
      if offset ≤ k ∧ k < offset + piece.length then piece[k - offset]? else buffer[k]? := by
  have front : (buffer.take offset).length = offset := by
    rw [length_take]
    omega
  rw [overwrite,append_assoc]
  by_cases before : k < offset
  · rw [getElem?_append_left (by omega),getElem?_take_of_lt before,if_neg (by omega)]
  · rw [getElem?_append_right (by omega),front]
    by_cases inside : k < offset + piece.length
    · rw [getElem?_append_left (by omega),if_pos (by omega)]
    · rw [getElem?_append_right (by omega),if_neg (by omega),getElem?_drop]
      congr 1
      omega

theorem getElem?_element : (element size buffer i)[k]? = if k < size then buffer[i * size + k]? else none := by
  rw [element,getElem?_take]
  split
  · rw [getElem?_drop]
  · rfl

theorem cells_apart (different : i ≠ j) (inside : k < size) :
    ¬(j * size ≤ i * size + k ∧ i * size + k < j * size + size) := by
  rintro ⟨low,high⟩
  rcases Nat.lt_or_gt_of_ne different with below | above
  · have := Nat.mul_le_mul_right size (Nat.succ_le_of_lt below)
    rw [Nat.succ_mul] at this
    omega
  · have := Nat.mul_le_mul_right size (Nat.succ_le_of_lt above)
    rw [Nat.succ_mul] at this
    omega

theorem element_overwrite (whole : buffer.length = items * size) (bound : j < items) (length : piece.length = size) :
    element size (overwrite buffer (j * size) piece) i = if i = j then piece else element size buffer i := by
  have fits : j * size + piece.length ≤ buffer.length := by
    rw [length,whole]
    exact cell_bound bound
  apply ext_getElem?
  intro k
  by_cases inside : k < size
  · rw [getElem?_element,if_pos inside,getElem?_overwrite fits,length]
    by_cases same : i = j
    · subst same
      rw [if_pos (by omega),if_pos rfl,Nat.add_sub_cancel_left]
    · rw [if_neg (cells_apart same inside),if_neg same,getElem?_element,if_pos inside]
  · rw [getElem?_element,if_neg inside]
    split
    · rw [getElem?_eq_none (by omega)]
    · rw [getElem?_element,if_neg inside]

theorem ext_elements {other : List β} (whole : buffer.length = items * size) (same : other.length = items * size)
    (elements : ∀ i < items, element size buffer i = element size other i) : buffer = other := by
  apply ext_getElem?
  intro k
  by_cases inside : k < items * size
  · have positive : 0 < size := Nat.pos_of_ne_zero fun zero => by simp [zero] at inside
    have cell := Nat.div_add_mod' k size
    have small := Nat.mod_lt k positive
    have entry := congrArg (fun piece => piece[k % size]?) (elements (k / size) (Nat.div_lt_of_lt_mul (by rwa [mul_comm])))
    simpa only [getElem?_element,if_pos small,cell] using entry
  · rw [getElem?_eq_none (by omega),getElem?_eq_none (by omega)]

section Writes

variable {α ε : Type} {target : α → Nat} {value : α → List β} {step : List β → α → Except ε (List β)}

theorem foldlM_writes (steps : List α) (apart : (steps.map target).Nodup) (bound : ∀ a ∈ steps, target a < items)
    (length : ∀ a ∈ steps, (value a).length = size) (writes : ∀ a ∈ steps, ∀ buffer : List β, buffer.length = items * size →
      step buffer a = .ok (overwrite buffer (target a * size) (value a)))
    (buffer : List β) (whole : buffer.length = items * size) : ∃ final, steps.foldlM step buffer = .ok final ∧
      final.length = items * size ∧ (∀ a ∈ steps, element size final (target a) = value a) ∧
      ∀ k, k ∉ steps.map target → element size final k = element size buffer k := by
  induction steps generalizing buffer with
  | nil => exact ⟨buffer,rfl,whole,nofun,fun _ _ => rfl⟩
  | cons a steps ih =>
    have fits : target a * size + (value a).length ≤ buffer.length := by
      rw [length a mem_cons_self,whole]
      exact cell_bound (bound a mem_cons_self)
    rw [map_cons,nodup_cons] at apart
    obtain ⟨final,result,finalLength,written,kept⟩ := ih apart.2
      (fun b there => bound b (mem_cons_of_mem a there)) (fun b there => length b (mem_cons_of_mem a there))
      (fun b there => writes b (mem_cons_of_mem a there)) (overwrite buffer (target a * size) (value a))
      ((length_overwrite fits).trans whole)
    have first : ∀ k, element size (overwrite buffer (target a * size) (value a)) k =
        if k = target a then value a else element size buffer k := fun k =>
      element_overwrite whole (bound a mem_cons_self) (length a mem_cons_self)
    refine ⟨final,?_,finalLength,?_,?_⟩
    · rw [foldlM_cons,writes a mem_cons_self buffer whole]
      exact result
    · exact forall_mem_cons.mpr ⟨by rw [kept _ apart.1,first,if_pos rfl],written⟩
    · intro k outside
      rw [map_cons,mem_cons,not_or] at outside
      rw [kept k outside.2,first,if_neg outside.1]

end Writes

end GraphEngine.Lib.ElementBuffer
