import Mathlib.Data.List.GetD
import Mathlib.Order.Lattice.Nat
import Mathlib.Tactic.Ring

/-! Multi-indexes of a shape in row-major order, the last axis innermost, and nests of counting loops over them. -/

namespace GraphEngine.Lib.RowMajor

open List

def offset : List Nat → List Nat → Nat
  | _ :: shape,i :: index => i * shape.prod + offset shape index
  | _,_ => 0

def indices : List Nat → List (List Nat)
  | [] => [[]]
  | count :: shape => (List.range count).flatMap fun i => (indices shape).map (i :: ·)

theorem range_mul (count width : Nat) :
    (range count).flatMap (fun i => (range width).map (i * width + ·)) = range (count * width) := by
  induction count with
  | zero => simp
  | succ count ih =>
    rw [range_succ,flatMap_append,ih,Nat.succ_mul,range_add]
    simp

theorem range_blocks (n width : Nat) : (range (n / width)).flatMap (fun i => (range width).map (i * width + ·)) ++
      (range (n - n / width * width)).map (n / width * width + ·) = range n := by
  rw [range_mul,← range_add,Nat.add_sub_cancel' (Nat.div_mul_le_self n width)]

theorem range_cut (n width count : Nat) :
    (range count).flatMap (fun i => (range (min width (n - i * width))).map (i * width + ·)) =
      range (min n (count * width)) := by
  induction count with
  | zero => simp
  | succ count ih =>
    rw [range_succ,flatMap_append,ih,flatMap_singleton]
    by_cases before : n ≤ count * width
    · rw [Nat.sub_eq_zero_of_le before,Nat.min_zero,range_zero,map_nil,append_nil,Nat.min_eq_left before,
        Nat.min_eq_left (by rw [Nat.succ_mul]; omega)]
    · rw [Nat.min_eq_right (by omega),← range_add,Nat.succ_mul]
      congr 1
      omega

theorem map_offset_indices (shape : List Nat) : (indices shape).map (offset shape) = range shape.prod := by
  induction shape with
  | nil => rfl
  | cons count shape ih =>
    rw [indices,map_flatMap,prod_cons,← range_mul]
    congr 1
    funext i
    rw [← ih,map_map,map_map]
    rfl

theorem length_indices (shape : List Nat) : (indices shape).length = shape.prod := by
  rw [← length_map,map_offset_indices,length_range]

variable {shape index : List Nat} {count i : Nat}

theorem offset_lt (inside : index ∈ indices shape) : offset shape index < shape.prod := by
  rw [← mem_range,← map_offset_indices]
  exact mem_map_of_mem inside

theorem exists_index {k : Nat} (bound : k < shape.prod) : ∃ index ∈ indices shape, offset shape index = k := by
  rw [← mem_range,← map_offset_indices] at bound
  exact mem_map.mp bound

theorem nodup_offsets (shape : List Nat) : ((indices shape).map (offset shape)).Nodup := by
  rw [map_offset_indices]
  exact nodup_range

theorem mem_indices_cons : i :: index ∈ indices (count :: shape) ↔ i < count ∧ index ∈ indices shape := by
  simp only [indices,mem_flatMap,mem_range,mem_map,List.cons.injEq]
  constructor
  · rintro ⟨j,bound,rest,inside,rfl,rfl⟩
    exact ⟨bound,inside⟩
  · rintro ⟨bound,inside⟩
    exact ⟨i,bound,index,inside,rfl,rfl⟩

theorem forall_indices_cons {P : List Nat → Prop} :
    (∀ index ∈ indices (count :: shape), P index) ↔ ∀ i < count, ∀ index ∈ indices shape, P (i :: index) := by
  constructor
  · intro all i bound index inside
    exact all _ (mem_indices_cons.mpr ⟨bound,inside⟩)
  · intro all index inside
    simp only [indices,mem_flatMap,mem_range,mem_map] at inside
    obtain ⟨i,bound,rest,inner,rfl⟩ := inside
    exact all i bound rest inner

theorem nil_mem_indices : [] ∈ indices [] :=
  mem_singleton.mpr rfl

theorem mem_indices_four {d0 d1 d2 d3 a b x y : Nat} (aBound : a < d0) (bBound : b < d1) (xBound : x < d2) (yBound : y < d3) :
    [a,b,x,y] ∈ indices [d0,d1,d2,d3] := by
  simp only [mem_indices_cons]
  exact ⟨aBound,bBound,xBound,yBound,nil_mem_indices⟩

theorem mem_indices_five {d0 d1 d2 d3 d4 a b x y z : Nat} (aBound : a < d0) (bBound : b < d1) (xBound : x < d2)
    (yBound : y < d3) (zBound : z < d4) : [a,b,x,y,z] ∈ indices [d0,d1,d2,d3,d4] :=
  mem_indices_cons.mpr ⟨aBound,mem_indices_four bBound xBound yBound zBound⟩

theorem forall_indices_nil {P : List Nat → Prop} : (∀ index ∈ indices [], P index) ↔ P [] := by
  simp [indices]

theorem length_of_mem (inside : index ∈ indices shape) : index.length = shape.length := by
  induction shape generalizing index with
  | nil => rw [mem_singleton.mp inside]
  | cons count shape ih =>
    simp only [indices,mem_flatMap,mem_map] at inside
    obtain ⟨i,_,rest,inner,rfl⟩ := inside
    rw [length_cons,length_cons,ih inner]

theorem offset_concat (same : index.length = shape.length) (count i : Nat) :
    offset (shape ++ [count]) (index ++ [i]) = offset shape index * count + i := by
  induction shape generalizing index with
  | nil =>
    rw [length_eq_zero_iff.mp same]
    simp [offset]
  | cons first shape ih =>
    cases index with
    | nil => simp at same
    | cons j index =>
      have inner := ih (Nat.succ.inj same)
      simp only [cons_append,offset,inner,prod_append,prod_singleton]
      ring

theorem concat_mem (inside : index ∈ indices shape) (bound : i < count) : index ++ [i] ∈ indices (shape ++ [count]) := by
  induction shape generalizing index with
  | nil =>
    rw [mem_singleton.mp inside]
    exact mem_indices_cons.mpr ⟨bound,mem_singleton.mpr rfl⟩
  | cons first shape ih =>
    simp only [indices,mem_flatMap,mem_range,mem_map] at inside
    obtain ⟨j,small,rest,inner,rfl⟩ := inside
    exact mem_indices_cons.mpr ⟨small,ih inner⟩

theorem eq_concat_of_mem (inside : index ∈ indices (shape ++ [count])) :
    ∃ front i, index = front ++ [i] ∧ front ∈ indices shape ∧ i < count := by
  induction shape generalizing index with
  | nil =>
    simp only [nil_append,indices,mem_flatMap,mem_range,mem_map] at inside
    obtain ⟨i,bound,rest,inner,rfl⟩ := inside
    rw [mem_singleton.mp inner]
    exact ⟨[],i,rfl,mem_singleton.mpr rfl,bound⟩
  | cons first shape ih =>
    simp only [cons_append,indices,mem_flatMap,mem_range,mem_map] at inside
    obtain ⟨j,small,rest,inner,rfl⟩ := inside
    obtain ⟨front,i,rfl,member,bound⟩ := ih inner
    exact ⟨j :: front,i,rfl,mem_indices_cons.mpr ⟨small,member⟩,bound⟩

theorem getElem?_indices (inside : index ∈ indices shape) : (indices shape)[offset shape index]? = some index := by
  obtain ⟨j,bound,found⟩ := mem_iff_getElem.mp inside
  have entry : ((indices shape).map (offset shape))[j]? = some j := by
    rw [map_offset_indices]
    exact getElem?_range (by rwa [length_indices] at bound)
  rw [getElem?_map,getElem?_eq_getElem bound,found,Option.map_some] at entry
  rw [Option.some.inj entry,getElem?_eq_getElem bound,found]

theorem map_indices_three {α : Type} (f : List Nat → α) (a b c : Nat) : (indices [a,b,c]).map f =
    (range a).flatMap fun i => (range b).flatMap fun j => (range c).map fun k => f [i,j,k] := by
  simp only [indices,map_flatMap,map_cons,map_nil]
  simp only [map_eq_flatMap]

def at3 {α : Type} (other : α) (f : Nat → Nat → Nat → α) : List Nat → α
  | [a,b,c] => f a b c
  | _ => other

def at4 {α : Type} (other : α) (f : Nat → Nat → Nat → Nat → α) : List Nat → α
  | [a,b,c,d] => f a b c d
  | _ => other

def at5 {α : Type} (other : α) (f : Nat → Nat → Nat → Nat → Nat → α) : List Nat → α
  | [a,b,c,d,e] => f a b c d e
  | _ => other

section Loops

variable {σ ε : Type}

def forLoop (count : Nat) (body : Nat → σ → Except ε σ) (state : σ) : Except ε σ :=
  (List.range count).foldlM (fun state i => body i state) state

def nest : List Nat → (List Nat → σ → Except ε σ) → σ → Except ε σ
  | [],body => body []
  | count :: shape,body => forLoop count fun i => nest shape fun index => body (i :: index)

variable {α : Type} {count : Nat} {body : Nat → σ → Except ε σ} {step : σ → α → Except ε σ}

theorem foldlM_flatMap {β : Type} (pieces : α → List β) (step : σ → β → Except ε σ) (xs : List α) (state : σ) :
    (xs.flatMap pieces).foldlM step state = xs.foldlM (fun state x => (pieces x).foldlM step state) state := by
  induction xs generalizing state with
  | nil => rfl
  | cons x xs ih =>
    rw [flatMap_cons,foldlM_append,foldlM_cons]
    congr 1
    funext state
    exact ih state

theorem nest_eq (shape : List Nat) (body : List Nat → σ → Except ε σ) (state : σ) :
    nest shape body state = (indices shape).foldlM (fun state index => body index state) state := by
  induction shape generalizing body state with
  | nil =>
    change body [] state = _
    rw [indices,foldlM_cons]
    simp
  | cons count shape ih =>
    rw [indices,foldlM_flatMap,nest,forLoop]
    congr 1
    funext state i
    rw [ih,foldlM_map]

theorem forLoop_flatMap {pieces : Nat → List α} (same : ∀ i state, body i state = (pieces i).foldlM step state) (state : σ) :
    forLoop count body state = ((range count).flatMap pieces).foldlM step state := by
  rw [foldlM_flatMap,forLoop]
  congr 1
  funext state i
  exact same i state

theorem forLoop_error {state : σ} {error : ε} (some : 0 < count)
    (fails : body 0 state = .error error) : forLoop count body state = .error error := by
  obtain ⟨rest,rfl⟩ : ∃ rest, count = rest + 1 := ⟨count - 1,by omega⟩
  rw [forLoop,range_succ_eq_map,foldlM_cons,fails]
  rfl

/-- A loop that keeps an account of the room that is left does what the loop without it does, as long as there is room. -/
theorem foldlM_account {charged : σ × Int → α → Except ε (σ × Int)} {charge limit : Int} (positive : 0 ≤ charge) (xs : List α)
    (same : ∀ x ∈ xs, ∀ state room, charge ≤ room → room ≤ limit →
      charged (state,room) x = (step state x).map fun next => (next,room - charge))
    (state : σ) (room : Int) (enough : charge * xs.length ≤ room) (small : room ≤ limit) :
    xs.foldlM charged (state,room) = (xs.foldlM step state).map fun next => (next,room - charge * xs.length) := by
  induction xs generalizing state room with
  | nil => simp [pure,Except.pure,Except.map]
  | cons x xs ih =>
    rw [length_cons,Nat.cast_succ,mul_add,mul_one] at enough ⊢
    have rest : 0 ≤ charge * (xs.length : Int) := Int.mul_nonneg positive (Int.natCast_nonneg _)
    rw [foldlM_cons,foldlM_cons,same x mem_cons_self state room (by omega) small]
    cases step state x with
    | error error => rfl
    | ok next =>
      have later := ih (fun y there => same y (mem_cons_of_mem x there)) next (room - charge) (by omega) (by omega)
      have left : room - charge - charge * (xs.length : Int) = room - (charge * (xs.length : Int) + charge) := by omega
      rw [left] at later
      exact later

theorem foldlM_error {xs : List α} {x : α} (member : x ∈ xs)
    (fails : ∀ state, ∃ error, step state x = .error error) (state : σ) : ∃ error, xs.foldlM step state = .error error := by
  induction xs generalizing state with
  | nil => cases member
  | cons y xs ih =>
    rw [foldlM_cons]
    rcases mem_cons.mp member with rfl | later
    · obtain ⟨error,failed⟩ := fails state
      exact ⟨error,by rw [failed]; rfl⟩
    · cases step state y with
      | error error => exact ⟨error,rfl⟩
      | ok next => exact ih later next

end Loops

end GraphEngine.Lib.RowMajor
