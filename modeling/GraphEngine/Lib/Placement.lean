import GraphEngine.Lib.ElementBuffer
import GraphEngine.Lib.RowMajor

/-! A layout puts the elements of a plain tensor at places of their own in a larger one that is zero elsewhere. A sequence of
copies of consecutive elements realises a layout when its cells are those of the layout. -/

namespace GraphEngine.Lib.Placement

open RowMajor ElementBuffer List
open Prod (fst swap)

theorem nodup_indices (shape : List Nat) : (indices shape).Nodup := (nodup_offsets shape).of_map

theorem offset_injective {shape index other : List Nat} (inside : index ∈ indices shape) (member : other ∈ indices shape)
    (same : offset shape index = offset shape other) : index = other := by
  have entry := getElem?_indices inside
  rw [same,getElem?_indices member] at entry
  exact (Option.some.inj entry).symm

theorem ext_indices {β : Type} {shape : List Nat} {size : Nat} {buffer other : List β}
    (whole : buffer.length = shape.prod * size) (same : other.length = shape.prod * size)
    (elements : ∀ index ∈ indices shape, element size buffer (offset shape index) = element size other (offset shape index)) :
    buffer = other := by
  apply ext_elements whole same
  intro k bound
  obtain ⟨index,inside,rfl⟩ := exists_index bound
  exact elements index inside

structure Layout (plain padded : List Nat) where
  place : List Nat → List Nat
  inside : ∀ index ∈ indices plain, place index ∈ indices padded
  injective : ∀ index ∈ indices plain, ∀ other ∈ indices plain, place index = place other → index = other

structure Run where
  target : Nat
  source : Nat
  length : Nat

namespace Run

def cells (run : Run) : List (Nat × Nat) := (List.range run.length).map fun k => (run.target + k,run.source + k)

def reverse (run : Run) : Run := ⟨run.source,run.target,run.length⟩

theorem fst_mem_cells {run : Run} {i : Nat} : i ∈ run.cells.map fst ↔ run.target ≤ i ∧ i < run.target + run.length := by
  simp only [cells,map_map,mem_map,mem_range,Function.comp]
  constructor
  · rintro ⟨k,bound,rfl⟩
    omega
  · intro within
    exact ⟨i - run.target,by omega,by omega⟩

theorem cells_reverse (run : Run) : run.reverse.cells = run.cells.map Prod.swap := by
  simp only [cells,reverse,map_map]
  rfl

theorem cells_single (target source : Nat) : (mk target source 1).cells = [(target,source)] := rfl

end Run

def cellsOf (runs : List Run) : List (Nat × Nat) := runs.flatMap Run.cells

section Copies

variable {β ε : Type} {size items sources : Nat} {data : List β}

def slice (size : Nat) (data : List β) (start length : Nat) : List β := (data.drop (start * size)).take (length * size)

theorem length_slice {start length : Nat} (whole : data.length = sources * size) (inside : start + length ≤ sources) :
    (slice size data start length).length = length * size := by
  have fits := Nat.mul_le_mul_right size inside
  rw [add_mul] at fits
  rw [slice,length_take,length_drop,whole]
  omega

theorem within_iff {i k r length : Nat} (inside : r < size) :
    i * size ≤ k * size + r ∧ k * size + r < i * size + length * size ↔ i ≤ k ∧ k < i + length := by
  constructor
  · rintro ⟨low,high⟩
    rw [← add_mul] at high
    refine ⟨?_,Nat.lt_of_mul_lt_mul_right (lt_of_le_of_lt (Nat.le_add_right _ r) high)⟩
    by_contra below
    have := Nat.mul_le_mul_right size (Nat.succ_le_of_lt (Nat.lt_of_not_le below))
    rw [Nat.succ_mul] at this
    omega
  · rintro ⟨low,high⟩
    have first := Nat.mul_le_mul_right size low
    have last := Nat.mul_le_mul_right size (Nat.succ_le_of_lt high)
    rw [Nat.succ_mul,add_mul] at last
    omega

theorem element_overwrite_slice {buffer : List β} {run : Run} (length : buffer.length = items * size)
    (fits : run.target + run.length ≤ items) (whole : data.length = sources * size)
    (inside : run.source + run.length ≤ sources) (k : Nat) :
    element size (overwrite buffer (run.target * size) (slice size data run.source run.length)) k =
      if run.target ≤ k ∧ k < run.target + run.length then element size data (run.source + (k - run.target))
      else element size buffer k := by
  have sliceLength := length_slice whole inside
  have room : run.target * size + (slice size data run.source run.length).length ≤ buffer.length := by
    rw [sliceLength,length,← add_mul]
    exact Nat.mul_le_mul_right size fits
  apply ext_getElem?
  intro r
  by_cases small : r < size
  · rw [getElem?_element,if_pos small,getElem?_overwrite room,sliceLength]
    by_cases here : run.target ≤ k ∧ k < run.target + run.length
    · have bytes := (within_iff small).mpr here
      have start := Nat.mul_le_mul_right size here.1
      have place : run.source * size + (k * size + r - run.target * size) = (run.source + (k - run.target)) * size + r := by
        rw [add_mul,Nat.sub_mul]
        omega
      rw [if_pos bytes,if_pos here,slice,getElem?_take_of_lt (by omega),getElem?_drop,place,getElem?_element,
        if_pos small]
    · rw [if_neg fun bytes => here ((within_iff small).mp bytes),if_neg here,getElem?_element,if_pos small]
  · rw [getElem?_element,if_neg small]
    split
    all_goals rw [getElem?_element,if_neg small]

theorem foldlM_copies (step : List β → Run → Except ε (List β)) (runs : List Run)
    (apart : ((cellsOf runs).map fst).Nodup) (fits : ∀ run ∈ runs, run.target + run.length ≤ items)
    (inside : ∀ run ∈ runs, run.source + run.length ≤ sources) (whole : data.length = sources * size)
    (copies : ∀ run ∈ runs, ∀ buffer : List β, buffer.length = items * size →
      step buffer run = .ok (overwrite buffer (run.target * size) (slice size data run.source run.length)))
    (buffer : List β) (length : buffer.length = items * size) : ∃ final, runs.foldlM step buffer = .ok final ∧
      final.length = items * size ∧ (∀ cell ∈ cellsOf runs, element size final cell.1 = element size data cell.2) ∧
      ∀ k, k ∉ (cellsOf runs).map fst → element size final k = element size buffer k := by
  induction runs generalizing buffer with
  | nil => exact ⟨buffer,rfl,length,nofun,fun _ _ => rfl⟩
  | cons run runs ih =>
    have first := element_overwrite_slice length (fits run mem_cons_self) whole (inside run mem_cons_self)
    have room : run.target * size + (slice size data run.source run.length).length ≤ buffer.length := by
      rw [length_slice whole (inside run mem_cons_self),length,← add_mul]
      exact Nat.mul_le_mul_right size (fits run mem_cons_self)
    rw [cellsOf,flatMap_cons,map_append,nodup_append] at apart
    obtain ⟨final,result,finalLength,copied,kept⟩ := ih apart.2.1
      (fun other there => fits other (mem_cons_of_mem run there))
      (fun other there => inside other (mem_cons_of_mem run there))
      (fun other there => copies other (mem_cons_of_mem run there))
      (overwrite buffer (run.target * size) (slice size data run.source run.length)) ((length_overwrite room).trans length)
    refine ⟨final,?_,finalLength,?_,?_⟩
    · rw [foldlM_cons,copies run mem_cons_self buffer length]
      exact result
    · intro cell there
      rw [cellsOf,flatMap_cons,mem_append] at there
      rcases there with here | later
      · have outside : cell.1 ∉ (cellsOf runs).map fst := fun again =>
          apart.2.2 _ (mem_map_of_mem here) _ again rfl
        obtain ⟨k,bound,rfl⟩ := mem_map.mp here
        rw [mem_range] at bound
        rw [kept _ outside,first,if_pos ⟨Nat.le_add_right _ _,Nat.add_lt_add_left bound _⟩]
        dsimp only
        rw [Nat.add_sub_cancel_left]
      · exact copied cell later
    · intro k outside
      rw [cellsOf,flatMap_cons,map_append,mem_append,not_or,Run.fst_mem_cells] at outside
      rw [kept k outside.2,first,if_neg outside.1]

end Copies

namespace Layout

variable {plain padded : List Nat} (layout : Layout plain padded)

def cells : List (Nat × Nat) := (indices plain).map fun index => (offset padded (layout.place index),offset plain index)

theorem cells_fst : layout.cells.map fst = (indices plain).map fun index => offset padded (layout.place index) := by
  rw [cells,map_map]
  rfl

theorem cells_snd : layout.cells.map Prod.snd = range plain.prod := by
  rw [cells,map_map,← map_offset_indices]
  rfl

theorem cells_apart : (layout.cells.map fst).Nodup := by
  rw [cells_fst]
  apply List.Nodup.map_on ?_ (nodup_indices plain)
  intro index member other member' same
  exact layout.injective index member other member'
    (offset_injective (layout.inside index member) (layout.inside other member') same)

theorem cells_bound {cell : Nat × Nat} (there : cell ∈ layout.cells) : cell.1 < padded.prod ∧ cell.2 < plain.prod := by
  obtain ⟨index,member,rfl⟩ := mem_map.mp there
  exact ⟨offset_lt (layout.inside index member),offset_lt member⟩

theorem prod_le (layout : Layout plain padded) : plain.prod ≤ padded.prod := by
  have places : layout.cells.map fst ⊆ range padded.prod := by
    intro i there
    obtain ⟨cell,member,rfl⟩ := mem_map.mp there
    exact mem_range.mpr (layout.cells_bound member).1
  have fewer := (subperm_of_subset layout.cells_apart places).length_le
  rwa [length_map,cells,length_map,length_indices,length_range] at fewer

theorem run_fits {layout : Layout plain padded} {runs : List Run} (cells : (cellsOf runs).Perm layout.cells)
    (nonempty : ∀ run ∈ runs, 0 < run.length) :
    ∀ run ∈ runs, run.target + run.length ≤ padded.prod ∧ run.source + run.length ≤ plain.prod := by
  intro run there
  have some := nonempty run there
  have last : (run.target + (run.length - 1),run.source + (run.length - 1)) ∈ cellsOf runs :=
    mem_flatMap.mpr ⟨run,there,mem_map.mpr ⟨_,mem_range.mpr (by omega),rfl⟩⟩
  have bound := layout.cells_bound (cells.mem_iff.mp last)
  omega

variable {β : Type} [Zero β]

structure Renders (size : Nat) (data tiled : List β) : Prop where
  length : tiled.length = padded.prod * size
  elements : ∀ index ∈ indices plain,
    element size tiled (offset padded (layout.place index)) = element size data (offset plain index)
  padding : ∀ index ∈ indices padded, (∀ origin ∈ indices plain, layout.place origin ≠ index) →
    element size tiled (offset padded index) = List.replicate size 0

theorem Renders.nil {layout : Layout plain padded} {size : Nat} {data : List β} (none : padded.prod = 0) :
    layout.Renders size data [] := by
  refine ⟨by rw [none,zero_mul]; rfl,?_,?_⟩
  · intro index member
    have := offset_lt (layout.inside index member)
    omega
  · intro index member
    have := offset_lt member
    omega

section
variable {layout} {ε : Type} {size : Nat} {data tiled : List β} {runs : List Run}
  {step : List β → Run → Except ε (List β)} (cells : (cellsOf runs).Perm layout.cells)
  (nonempty : ∀ run ∈ runs, 0 < run.length) (whole : data.length = plain.prod * size)
include cells nonempty whole

theorem render (copies : ∀ run ∈ runs, run.target + run.length ≤ padded.prod → run.source + run.length ≤ plain.prod →
      ∀ buffer : List β, buffer.length = padded.prod * size →
        step buffer run = .ok (overwrite buffer (run.target * size) (slice size data run.source run.length))) :
    ∃ tiled, runs.foldlM step (replicate (padded.prod * size) 0) = .ok tiled ∧ layout.Renders size data tiled := by
  have fits := run_fits cells nonempty
  obtain ⟨tiled,result,length,copied,kept⟩ := foldlM_copies step runs
    ((cells.map fst).nodup_iff.mpr layout.cells_apart) (fun run there => (fits run there).1)
    (fun run there => (fits run there).2) whole
    (fun run there => copies run there (fits run there).1 (fits run there).2) (replicate (padded.prod * size) 0)
    length_replicate
  refine ⟨tiled,result,length,?_,?_⟩
  · intro index member
    exact copied _ (cells.mem_iff.mpr (mem_map_of_mem member))
  · intro index member outside
    rw [kept]
    · exact element_replicate 0 (offset_lt member)
    · intro written
      rw [(cells.map fst).mem_iff,cells_fst] at written
      obtain ⟨origin,there,same⟩ := mem_map.mp written
      exact outside origin there (offset_injective (layout.inside origin there) member same)

theorem restore (renders : layout.Renders size data tiled)
    (copies : ∀ run ∈ runs, run.target + run.length ≤ padded.prod → run.source + run.length ≤ plain.prod →
      ∀ buffer : List β, buffer.length = plain.prod * size →
        step buffer run = .ok (overwrite buffer (run.source * size) (slice size tiled run.target run.length)))
    (buffer : List β) (length : buffer.length = plain.prod * size) : runs.foldlM step buffer = .ok data := by
  have fits := run_fits cells nonempty
  have swapped : (cellsOf (runs.map Run.reverse)).Perm (layout.cells.map Prod.swap) := by
    rw [cellsOf,flatMap_map]
    simp only [Run.cells_reverse]
    rw [← map_flatMap]
    exact cells.map Prod.swap
  have sources : (layout.cells.map Prod.swap).map Prod.fst = List.range plain.prod := by
    rw [map_map,← layout.cells_snd]
    rfl
  have apart : ((cellsOf (runs.map Run.reverse)).map Prod.fst).Nodup := by
    rw [(swapped.map Prod.fst).nodup_iff,sources]
    exact nodup_range
  obtain ⟨final,result,finalLength,copied,_⟩ := foldlM_copies (fun buffer run => step buffer run.reverse)
    (runs.map Run.reverse) apart
    (forall_mem_map.mpr fun run there => (fits run there).2)
    (forall_mem_map.mpr fun run there => (fits run there).1) renders.length
    (forall_mem_map.mpr fun run there => copies run there (fits run there).1 (fits run there).2)
    buffer length
  rw [foldlM_map] at result
  have same : final = data := by
    apply ext_indices finalLength whole
    intro index member
    have cell : (offset plain index,offset padded (layout.place index)) ∈ layout.cells.map Prod.swap :=
      mem_map_of_mem (mem_map_of_mem member)
    exact (copied _ (swapped.mem_iff.mpr cell)).trans (renders.elements index member)
  rw [← same]
  exact result

end

section Corner

def corner {a b w a' b' w' : Nat} (first : a ≤ a') (second : b ≤ b') (third : w ≤ w') : Layout [a,b,w] [a',b',w'] where
  place := id
  inside := by
    simp only [forall_indices_cons,forall_indices_nil,id,mem_indices_cons]
    intro i iBound j jBound k kBound
    exact ⟨by omega,by omega,by omega,nil_mem_indices⟩
  injective := fun _ _ _ _ same => same

def cornerRuns (a b w b' w' : Nat) : List Run :=
  (List.range a).flatMap fun i => (List.range b).map fun j => ⟨(i * b' + j) * w',(i * b + j) * w,w⟩

theorem cellsOf_cornerRuns {a b w a' b' w' : Nat} (first : a ≤ a') (second : b ≤ b') (third : w ≤ w') :
    cellsOf (cornerRuns a b w b' w') = (corner first second third).cells := by
  rw [cells,map_indices_three,cellsOf,cornerRuns,flatMap_assoc]
  simp only [flatMap_map,Run.cells,corner,id,offset,prod_cons,prod_nil,mul_one,add_zero]
  refine flatMap_congr fun i _ => flatMap_congr fun j _ => map_congr_left fun k _ => ?_
  ext
  all_goals
    dsimp only
    ring

end Corner

end Layout

end GraphEngine.Lib.Placement
