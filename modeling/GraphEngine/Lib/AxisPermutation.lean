import GraphEngine.Lib.RowMajor

/-! Axes of a tensor in another order. A permutation of `0 … n - 1` reorders a shape and its multi-indexes alike; composition
and inverse are reordered lists themselves. -/

namespace GraphEngine.Lib.AxisPermutation

open RowMajor List

def permute (xs axes : List Nat) : List Nat := axes.map fun axis => xs.getD axis 0

def inverse (axes : List Nat) : List Nat := (List.range axes.length).map axes.idxOf

section Entries

variable {xs axes : List Nat}

theorem length_permute : (permute xs axes).length = axes.length := length_map _

theorem getD_permute {k : Nat} (bound : k < axes.length) : (permute xs axes).getD k 0 = xs.getD (axes.getD k 0) 0 := by
  rw [getD_eq_getElem _ _ (by rwa [length_permute]),getD_eq_getElem axes _ bound]
  exact getElem_map _

theorem permute_range (xs : List Nat) : permute xs (range xs.length) = xs := by
  apply ext_getElem
  · rw [length_permute,length_range]
  · intro k _ bound
    simp [permute,bound]

theorem permute_permute {order : List Nat} (inside : ∀ k ∈ order, k < axes.length) :
    permute (permute xs axes) order = permute xs (permute axes order) := by
  have composed : permute xs (permute axes order) = order.map fun k => xs.getD (axes.getD k 0) 0 := map_map
  rw [composed]
  apply map_congr_left
  intro k member
  exact getD_permute (inside k member)

end Entries

section Valid

variable {n : Nat} {axes : List Nat} (valid : axes.Perm (List.range n))

include valid

theorem length_of_valid : axes.length = n := by
  rw [valid.length_eq,length_range]

theorem lt_of_valid {axis : Nat} (member : axis ∈ axes) : axis < n := mem_range.mp (valid.mem_iff.mp member)

theorem nodup_of_valid : axes.Nodup := valid.nodup_iff.mpr nodup_range

theorem permute_perm {xs : List Nat} (same : xs.length = n) : (permute xs axes).Perm xs := by
  have reordered := valid.map fun axis => xs.getD axis 0
  rw [← same] at reordered
  exact reordered.trans (List.Perm.of_eq (permute_range xs))

theorem permute_valid {order : List Nat} (second : order.Perm (range n)) : (permute axes order).Perm (range n) :=
  (permute_perm second (length_of_valid valid)).trans valid

theorem permute_inverse : permute axes (inverse axes) = range n := by
  rw [permute,inverse,map_map,length_of_valid valid]
  conv_rhs => rw [← map_id (range n)]
  apply map_congr_left
  intro axis member
  have listed := valid.mem_iff.mpr member
  have bound := idxOf_lt_length_of_mem listed
  simp only [Function.comp,id]
  rw [getD_eq_getElem _ _ bound]
  exact getElem_idxOf bound

theorem inverse_permute : permute (inverse axes) axes = range n := by
  have length := length_of_valid valid
  apply ext_getElem
  · rw [length_permute,length,length_range]
  · intro k bound _
    have listed : k < axes.length := by rwa [length_permute] at bound
    have axis := lt_of_valid valid (getElem_mem listed)
    simp only [permute,inverse,getElem_map,getElem_range]
    rw [getD_eq_getElem _ _ (by simpa [length] using axis)]
    simp only [getElem_map,getElem_range]
    exact (nodup_of_valid valid).idxOf_getElem k listed

theorem inverse_lt {k : Nat} (member : k ∈ inverse axes) : k < n := by
  obtain ⟨axis,inside,rfl⟩ := mem_map.mp member
  rw [mem_range,length_of_valid valid] at inside
  have listed := idxOf_lt_length_of_mem (valid.mem_iff.mpr (mem_range.mpr inside))
  rwa [length_of_valid valid] at listed

theorem inverse_valid : (inverse axes).Perm (range n) := by
  have distinct : (inverse axes).Nodup := by
    -- reading the axes at the listed places gives different numbers
    apply List.Nodup.of_map (fun k => axes.getD k 0)
    have listed := permute_inverse valid
    rw [permute] at listed
    rw [listed]
    exact nodup_range
  apply (subperm_of_subset distinct fun k member => mem_range.mpr (inverse_lt valid member)).perm_of_length_le
  rw [length_range,inverse,length_map,length_range,length_of_valid valid]

theorem permute_back {xs : List Nat} (same : xs.length = n) : permute (permute xs axes) (inverse axes) = xs := by
  rw [permute_permute (by rw [length_of_valid valid]; exact fun k => inverse_lt valid),permute_inverse valid,← same,
    permute_range]

theorem permute_forth {xs : List Nat} (same : xs.length = n) : permute (permute xs (inverse axes)) axes = xs := by
  have length : (inverse axes).length = n := length_of_valid (inverse_valid valid)
  rw [permute_permute (by rw [length]; exact fun k => lt_of_valid valid),inverse_permute valid,← same,permute_range]

end Valid

section Indexes

theorem mem_indices_iff {shape index : List Nat} : index ∈ indices shape ↔
    index.length = shape.length ∧ ∀ k < shape.length, index.getD k 0 < shape.getD k 0 := by
  induction shape generalizing index with
  | nil =>
    rw [indices,mem_singleton,← length_eq_zero_iff]
    simp
  | cons count shape ih =>
    cases index with
    | nil =>
      constructor
      · intro member
        simpa using length_of_mem member
      · rintro ⟨length,_⟩
        simp at length
    | cons i index =>
      rw [mem_indices_cons,ih]
      constructor
      · rintro ⟨first,length,rest⟩
        refine ⟨by simpa using length,?_⟩
        intro k bound
        cases k with
        | zero => simpa using first
        | succ k => simpa using rest k (by simpa using bound)
      · rintro ⟨length,all⟩
        refine ⟨by simpa using all 0 (by simp),by simpa using length,?_⟩
        intro k bound
        simpa using all (k + 1) (by simpa using bound)

variable {shape axes : List Nat} (valid : axes.Perm (List.range shape.length))

include valid

theorem prod_permute : (permute shape axes).prod = shape.prod := (permute_perm valid rfl).prod_eq

theorem permute_mem {index : List Nat} (inside : index ∈ indices shape) : permute index axes ∈ indices (permute shape axes) := by
  obtain ⟨_,below⟩ := mem_indices_iff.mp inside
  rw [mem_indices_iff,length_permute,length_permute]
  refine ⟨rfl,?_⟩
  intro k bound
  rw [getD_permute bound,getD_permute bound,getD_eq_getElem axes _ bound]
  exact below _ (lt_of_valid valid (getElem_mem bound))

theorem exists_source {target : List Nat} (inside : target ∈ indices (permute shape axes)) :
    ∃ index ∈ indices shape, permute index axes = target := by
  have length : target.length = shape.length := by
    rw [length_of_mem inside,length_permute,length_of_valid valid]
  have back : (inverse axes).Perm (range (permute shape axes).length) := by
    rw [length_permute,length_of_valid valid]
    exact inverse_valid valid
  have member := permute_mem back inside
  rw [permute_back valid rfl] at member
  exact ⟨_,member,permute_forth valid length⟩

theorem sum_permute {xs ys : List Nat} (first : xs.length = shape.length) (second : ys.length = shape.length) :
    (zipWith (· * ·) (permute xs axes) (permute ys axes)).sum = (zipWith (· * ·) xs ys).sum := by
  have products : ∀ order : List Nat, zipWith (· * ·) (permute xs order) (permute ys order) =
      order.map fun axis => xs.getD axis 0 * ys.getD axis 0 := by
    intro order
    rw [permute,permute,zipWith_map,zipWith_self]
  have plain := products (range shape.length)
  rw [← first,permute_range,first,← second,permute_range,second] at plain
  rw [products,plain]
  exact (valid.map _).sum_eq

end Indexes

def rowStrides : List Nat → List Nat
  | [] => []
  | _ :: shape => shape.prod :: rowStrides shape

theorem offset_eq_sum {shape index : List Nat} (same : index.length = shape.length) :
    offset shape index = (zipWith (· * ·) index (rowStrides shape)).sum := by
  induction shape generalizing index with
  | nil => simp [rowStrides,offset]
  | cons count shape ih =>
    cases index with
    | nil => simp [offset]
    | cons i index =>
      rw [offset,ih (by simpa using same),rowStrides,zipWith_cons_cons,sum_cons]

section Strided
variable {shape axes steps : List Nat} (valid : axes.Perm (List.range shape.length))
  (ordered : permute steps axes = rowStrides (permute shape axes)) (same : steps.length = shape.length)

include valid ordered same

theorem strided_eq {index : List Nat} (inside : index ∈ indices shape) :
    (zipWith (· * ·) index steps).sum = offset (permute shape axes) (permute index axes) := by
  rw [← sum_permute valid (length_of_mem inside) same,ordered,offset_eq_sum]
  rw [length_permute,length_permute]

theorem strided_injective {index other : List Nat} (inside : index ∈ indices shape) (member : other ∈ indices shape)
    (meet : (zipWith (· * ·) index steps).sum = (zipWith (· * ·) other steps).sum) : index = other := by
  rw [strided_eq valid ordered same inside,strided_eq valid ordered same member] at meet
  have equal := inj_on_of_nodup_map (nodup_offsets _) (permute_mem valid inside) (permute_mem valid member) meet
  rw [← permute_back valid (length_of_mem inside),equal,permute_back valid (length_of_mem member)]

theorem strided_onto {x : Nat} : x < shape.prod ↔ ∃ index ∈ indices shape, (zipWith (· * ·) index steps).sum = x := by
  rw [← prod_permute valid]
  refine ⟨?_,?_⟩
  · intro bound
    obtain ⟨target,there,rfl⟩ := exists_index bound
    obtain ⟨index,inside,rfl⟩ := exists_source valid there
    exact ⟨index,inside,strided_eq valid ordered same inside⟩
  · intro ⟨index,inside,here⟩
    rw [← here,strided_eq valid ordered same inside]
    exact offset_lt (permute_mem valid inside)

end Strided

end GraphEngine.Lib.AxisPermutation
