import GraphEngine.Formats.Fractal
import GraphEngine.Formats.Lossless

/-! The loops of NZ and ZZ as sequences of copies, whose cells are those of a layout: an element goes to its tile and to its
place in the tile. -/

namespace GraphEngine.Formats

open Lib.RowMajor Lib.ElementBuffer Lib.Placement List

def runCopy (copy : TileCopy) (dst : List UInt8) (run : Run) : Except TransError (List UInt8) :=
  copy run.target run.source run.length dst

section Rows

def rowRuns (head plainHead stride w w0 : Nat) : List Run :=
  (List.range (w / w0)).map (fun w1Idx => ⟨head + w1Idx * stride,plainHead + w1Idx * w0,w0⟩) ++
    (List.range (w - w / w0 * w0)).map fun w0Idx => ⟨head + w / w0 * stride + w0Idx,plainHead + (w / w0 * w0 + w0Idx),1⟩

theorem copyRow_eq (head plainHead stride w w0 : Nat) (copy : TileCopy) (dst : List UInt8) :
    copyRow head plainHead stride w w0 copy dst = (rowRuns head plainHead stride w w0).foldlM (runCopy copy) dst := by
  rw [rowRuns,foldlM_append]
  simp only [foldlM_map]
  rfl

theorem cellsOf_rowRuns (head plainHead stride w : Nat) {w0 : Nat} (w0Pos : 0 < w0) :
    cellsOf (rowRuns head plainHead stride w w0) =
      (List.range w).map fun x => (head + x / w0 * stride + x % w0,plainHead + x) := by
  conv_rhs => rw [← range_blocks w w0]
  rw [cellsOf,rowRuns,flatMap_append,map_append,flatMap_map,flatMap_map,map_flatMap]
  congr 1
  · congr 1
    funext w1Idx
    rw [Run.cells,map_map]
    apply map_congr_left
    intro k inside
    have bound := mem_range.mp inside
    dsimp only [Function.comp]
    rw [(tile_parts bound).1,(tile_parts bound).2,add_assoc plainHead]
  · simp only [Run.cells_single]
    rw [← map_eq_flatMap,map_map]
    apply map_congr_left
    intro k inside
    have bound : k < w0 := by
      have := Nat.mod_lt w w0Pos
      have := Nat.div_add_mod' w w0
      have := mem_range.mp inside
      omega
    dsimp only [Function.comp]
    rw [(tile_parts bound).1,(tile_parts bound).2]

theorem rowRuns_length {head plainHead stride w w0 : Nat} {run : Run} (there : run ∈ rowRuns head plainHead stride w w0) :
    run.length = 1 ∨ run.length = w0 ∧ 0 < w / w0 := by
  rcases mem_append.mp there with tile | rest
  · obtain ⟨w1Idx,inside,rfl⟩ := mem_map.mp tile
    exact .inr ⟨rfl,Nat.zero_lt_of_lt (mem_range.mp inside)⟩
  · obtain ⟨w0Idx,_,rfl⟩ := mem_map.mp rest
    exact .inl rfl

end Rows

section Nz

variable (times h w w1 h1 h0 w0 : Nat)

def fracNzRuns : List Run :=
  (List.range times).flatMap fun timesIdx => (List.range h).flatMap fun h1h0Idx =>
    rowRuns (timesIdx * (w1 * (h1 * h0 * w0)) + h1h0Idx * w0) (timesIdx * (h * w) + h1h0Idx * w) (h1 * h0 * w0) w w0

variable {times h w w1 h1 h0 w0} (w0Pos : 0 < w0) (wFits : w ≤ w1 * w0) (hFits : h ≤ h1 * h0)

def nzLayout : Layout [times,h,w] [times,w1,h1 * h0,w0] where
  place := at3 [] fun t y x => [t,x / w0,y,x % w0]
  inside := by
    simp only [forall_indices_cons,forall_indices_nil]
    intro t tBound y yBound x xBound
    simp only [at3,mem_indices_cons]
    exact ⟨tBound,Nat.div_lt_of_lt_mul (by rw [Nat.mul_comm]; omega),by omega,Nat.mod_lt x w0Pos,nil_mem_indices⟩
  injective := by
    simp only [forall_indices_cons,forall_indices_nil]
    intro t _ y _ x _ t' _ y' _ x' _ same
    simp only [at3,List.cons.injEq,and_true] at same
    rw [same.1,same.2.2.1,← Nat.div_add_mod' x w0,same.2.1,same.2.2.2,Nat.div_add_mod' x' w0]

theorem cellsOf_fracNzRuns :
    cellsOf (fracNzRuns times h w w1 h1 h0 w0) = (nzLayout w0Pos wFits hFits : Layout [times,h,w] _).cells := by
  rw [Layout.cells,map_indices_three,cellsOf,fracNzRuns,flatMap_assoc]
  congr 1
  funext t
  rw [flatMap_assoc]
  congr 1
  funext y
  rw [← cellsOf,cellsOf_rowRuns _ _ _ _ w0Pos]
  congr 1
  funext x
  simp only [nzLayout,at3,offset,prod_cons,prod_nil,mul_one,add_zero]
  congr 1
  · ring
  · ring

end Nz

section Zz

variable (times h w h1 w1 h0 w0 : Nat)

def fracZzRuns : List Run :=
  (List.range times).flatMap fun timesIdx => (List.range h1).flatMap fun h1Idx =>
    (List.range (min h0 (h - h1Idx * h0))).flatMap fun h0Idx =>
      rowRuns (timesIdx * (h1 * (w1 * (h0 * w0))) + h1Idx * (w1 * (h0 * w0)) + h0Idx * w0)
        (timesIdx * (h * w) + (h1Idx * h0 + h0Idx) * w) (h0 * w0) w w0

variable {times h w h1 w1 h0 w0} (h0Pos : 0 < h0) (w0Pos : 0 < w0) (hFits : h ≤ h1 * h0) (wFits : w ≤ w1 * w0)

def zzLayout : Layout [times,h,w] [times,h1,w1,h0,w0] where
  place := at3 [] fun t y x => [t,y / h0,x / w0,y % h0,x % w0]
  inside := by
    simp only [forall_indices_cons,forall_indices_nil]
    intro t tBound y yBound x xBound
    simp only [at3,mem_indices_cons]
    exact ⟨tBound,Nat.div_lt_of_lt_mul (by rw [Nat.mul_comm]; omega),Nat.div_lt_of_lt_mul (by rw [Nat.mul_comm]; omega),
      Nat.mod_lt y h0Pos,Nat.mod_lt x w0Pos,nil_mem_indices⟩
  injective := by
    simp only [forall_indices_cons,forall_indices_nil]
    intro t _ y _ x _ t' _ y' _ x' _ same
    simp only [at3,List.cons.injEq,and_true] at same
    rw [same.1,← Nat.div_add_mod' x w0,same.2.2.1,same.2.2.2.2,Nat.div_add_mod' x' w0,← Nat.div_add_mod' y h0,same.2.1,
      same.2.2.2.1,Nat.div_add_mod' y' h0]

theorem cellsOf_fracZzRuns :
    cellsOf (fracZzRuns times h w h1 w1 h0 w0) = (zzLayout h0Pos w0Pos hFits wFits : Layout [times,h,w] _).cells := by
  rw [Layout.cells,map_indices_three,cellsOf,fracZzRuns,flatMap_assoc]
  congr 1
  funext t
  -- the rows of the tiles, one after the other, are the rows of the matrix
  have rows := range_cut h h0 h1
  rw [Nat.min_eq_left hFits] at rows
  rw [← rows,flatMap_assoc,flatMap_assoc]
  congr 1
  funext h1Idx
  rw [flatMap_assoc,flatMap_map]
  apply flatMap_congr
  intro h0Idx inside
  have bound : h0Idx < h0 := by
    have := mem_range.mp inside
    omega
  rw [← cellsOf,cellsOf_rowRuns _ _ _ _ w0Pos]
  congr 1
  funext x
  simp only [zzLayout,at3,offset,prod_cons,prod_nil,mul_one,add_zero,(tile_parts bound).1,
    (tile_parts bound).2]
  congr 1
  · ring
  · ring

end Zz

end GraphEngine.Formats
