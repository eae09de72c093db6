import GraphEngine.Formats.FractalZLossless

/-! FRACTAL_Z with groups. The data function for HWCN puts the groups side by side into shared blocks; how many share them is a
minimum of nested least common multiples. -/

namespace GraphEngine.Formats

open Lib.RowMajor Lib.ElementBuffer Lib.Placement Lib List

section Packing

theorem measureLoop_eq {fuel x y : Nat} (yPos : 0 < y) (enough : y < fuel) : measureLoop fuel x y y = Nat.gcd x y := by
  induction fuel generalizing x y with
  | zero => omega
  | succ fuel ih =>
    have rest : (x : Int).tmod y = (x % y : Nat) := rfl
    rw [measureLoop,rest]
    by_cases divides : x % y = 0
    · rw [if_pos (by omega),Nat.gcd_eq_right (Nat.dvd_of_mod_eq_zero divides)]
    · have smaller := Nat.mod_lt x yPos
      rw [if_neg (by omega),ih (by omega) (by omega),Nat.gcd_comm x y,Nat.gcd_rec y x,Nat.gcd_comm]

theorem lcm_eq (a : Nat) {b : Nat} (bPos : 0 < b) : lcm a b = Nat.lcm a b := by
  have divisor : measure a b = Nat.gcd a b := by
    rw [measure,if_neg (by omega)]
    exact measureLoop_eq bPos (by omega)
  rw [lcm,if_neg (by omega),divisor]
  rfl

def packing (c cout c0 groups : Nat) : Nat := min (Nat.lcm (Nat.lcm c c0 / c) (Nat.lcm cout 16 / cout)) groups

variable {c cout c0 groups : Nat}

theorem lcm_div_pos {a b : Nat} (aPos : 0 < a) (bPos : 0 < b) : 0 < Nat.lcm a b / a :=
  Nat.div_pos (Nat.le_of_dvd (Nat.lcm_pos aPos bPos) (Nat.dvd_lcm_left a b)) aPos

theorem eMultOf_eq (coutPos : 0 < cout) (c0Pos : 0 < c0) : eMultOf c cout c0 groups = packing c cout c0 groups := by
  have channels : (lcm c c0).tdiv c = (Nat.lcm c c0 / c : Nat) := by
    rw [lcm_eq c c0Pos]
    rfl
  have kernels : (lcm cout kCubeSize).tdiv cout = (Nat.lcm cout 16 / cout : Nat) := by
    have sixteen : lcm cout kCubeSize = Nat.lcm cout 16 := lcm_eq cout (by decide)
    rw [sixteen]
    rfl
  rw [eMultOf,channels,kernels,lcm_eq _ (lcm_div_pos coutPos (by decide)),packing]
  omega

theorem packing_pos (cPos : 0 < c) (coutPos : 0 < cout) (c0Pos : 0 < c0) (some : 0 < groups) :
    0 < packing c cout c0 groups := by
  have := Nat.lcm_pos (lcm_div_pos cPos c0Pos) (lcm_div_pos coutPos (by decide : 0 < 16))
  rw [packing]
  omega

theorem lcm_div_eq_one {a b : Nat} (single : Nat.lcm a b / a = 1) : b ∣ a := by
  have whole := Nat.div_mul_cancel (Nat.dvd_lcm_left a b)
  rw [single,one_mul] at whole
  exact whole ▸ Nat.dvd_lcm_right a b

theorem packing_eq_one (cPos : 0 < c) (coutPos : 0 < cout) (several : 1 < groups) :
    packing c cout c0 groups = 1 ↔ c0 ∣ c ∧ 16 ∣ cout := by
  constructor
  · intro single
    have both : Nat.lcm (Nat.lcm c c0 / c) (Nat.lcm cout 16 / cout) = 1 := by
      rw [packing] at single
      omega
    obtain ⟨first,second⟩ := Nat.lcm_eq_one_iff.mp both
    exact ⟨lcm_div_eq_one first,lcm_div_eq_one second⟩
  · rintro ⟨channels,kernels⟩
    rw [packing,Nat.lcm_eq_left channels,Nat.lcm_eq_left kernels,Nat.div_self cPos,Nat.div_self coutPos,Nat.lcm_self]
    omega

end Packing

section Layout

variable {h w c cout c0 groups e size : Nat} {data : List UInt8}

/-- The axes of the data when `e` groups share the blocks. -/
def groupAxes (h w c cout c0 groups e : Nat) : List Nat :=
  [blocks groups e,blocks (e * c) c0,h,w,blocks (e * cout) 16 * 16,c0]

/-- A kernel goes to the column of its group, next to the kernels of the groups that share the blocks with it. -/
def groupLayout (h w c cout c0 groups e : Nat) (coutPos : 0 < cout) (c0Pos : 0 < c0) (ePos : 0 < e) :
    Layout [h,w,c,groups * cout] (groupAxes h w c cout c0 groups e) where
  place := at4 [] fun x y i a => [a / cout / e,(a / cout % e * c + i) / c0,x,y,a / cout % e * cout + a % cout,
    (a / cout % e * c + i) % c0]
  inside := by
    simp only [groupAxes,forall_indices_cons,forall_indices_nil]
    intro x xBound y yBound i iBound a aBound
    have group : a / cout < groups := Nat.div_lt_of_lt_mul (by rwa [Nat.mul_comm])
    have share := Nat.mod_lt (a / cout) ePos
    have kernel := Nat.mod_lt a coutPos
    have column : a / cout % e * c + i < e * c := by
      have next := Nat.mul_le_mul_right c (Nat.succ_le_of_lt share)
      rw [Nat.succ_mul] at next
      exact (Nat.add_lt_add_left iBound _).trans_le next
    have row : a / cout % e * cout + a % cout < e * cout := by
      have next := Nat.mul_le_mul_right cout (Nat.succ_le_of_lt share)
      rw [Nat.succ_mul] at next
      exact (Nat.add_lt_add_left kernel _).trans_le next
    have room : e * cout ≤ blocks (e * cout) 16 * 16 := le_blocks (by decide) (Nat.mul_pos ePos coutPos)
    simp only [at4,mem_indices_cons]
    exact ⟨div_lt_blocks ePos group,div_lt_blocks c0Pos column,xBound,yBound,row.trans_le room,Nat.mod_lt _ c0Pos,nil_mem_indices⟩
  injective := by
    simp only [forall_indices_cons,forall_indices_nil]
    intro x _ y _ i iBound a _ x' _ y' _ i' iBound' a' _ same
    simp only [at4,List.cons.injEq,and_true] at same
    obtain ⟨set,block,rfl,rfl,kernel,rest⟩ := same
    have column : a / cout % e * c + i = a' / cout % e * c + i' := by
      rw [← Nat.div_add_mod' (a / cout % e * c + i) c0,block,rest,Nat.div_add_mod']
    have share : a / cout % e = a' / cout % e := by
      have divided := congrArg (· / c) column
      simpa only [(tile_parts iBound).1,(tile_parts iBound').1] using divided
    have channel : i = i' := by
      rw [share] at column
      exact Nat.add_left_cancel column
    have group : a / cout = a' / cout := by
      rw [← Nat.div_add_mod' (a / cout) e,set,share,Nat.div_add_mod']
    have own : a % cout = a' % cout := by
      rw [share] at kernel
      exact Nat.add_left_cancel kernel
    have whole : a = a' := by
      rw [← Nat.div_add_mod' a cout,group,own,Nat.div_add_mod']
    rw [channel,whole]

def groupStep (data : List UInt8) (size h w c cout c0 groups e g i x y m : Nat) (dst : List UInt8) :
    Except TransError (List UInt8) :=
  copyUnchecked data
    ((g / e * blocks (e * c) c0 * h * w * (blocks (e * cout) 16 * 16) * c0 +
      (g % e * c + i) / c0 * h * w * (blocks (e * cout) 16 * 16) * c0 + x * w * (blocks (e * cout) 16 * 16) * c0 +
      y * (blocks (e * cout) 16 * 16) * c0 + (g % e * cout + m) * c0 + (g % e * c + i) % c0) * size)
    ((x * w * c * (groups * cout) + y * c * (groups * cout) + i * (groups * cout) + (g * cout + m)) * size) size dst

def groupSource (cout : Nat) : List Nat → List Nat := at5 [] fun g i x y m => [x,y,i,g * cout + m]

theorem groupSource_mem : ∀ index ∈ indices [groups,c,h,w,cout], groupSource cout index ∈ indices [h,w,c,groups * cout] := by
  simp only [forall_indices_cons,forall_indices_nil]
  intro g gBound i iBound x xBound y yBound m mBound
  have kernel : g * cout + m < groups * cout := by
    have := Nat.mul_le_mul_right cout (Nat.succ_le_of_lt gBound)
    rw [Nat.succ_mul] at this
    omega
  exact mem_indices_four xBound yBound iBound kernel

theorem groupSource_injective : ∀ index ∈ indices [groups,c,h,w,cout], ∀ other ∈ indices [groups,c,h,w,cout],
    groupSource cout index = groupSource cout other → index = other := by
  simp only [forall_indices_cons,forall_indices_nil]
  intro g _ i _ x _ y _ m mBound g' _ i' _ x' _ y' _ m' mBound' same
  simp only [groupSource,at5,cons.injEq,and_true] at same
  obtain ⟨rfl,rfl,rfl,kernel⟩ := same
  have group : g = g' := by
    have divided := congrArg (· / cout) kernel
    simpa only [(tile_parts mBound).1,(tile_parts mBound').1] using divided
  have own : m = m' := by
    rw [group] at kernel
    omega
  rw [group,own]

theorem groupSource_onto (coutPos : 0 < cout) : ∀ index ∈ indices [h,w,c,groups * cout],
    ∃ origin ∈ indices [groups,c,h,w,cout], groupSource cout origin = index := by
  simp only [forall_indices_cons,forall_indices_nil]
  intro x xBound y yBound i iBound a aBound
  refine ⟨[a / cout,i,x,y,a % cout],?_,?_⟩
  · exact mem_indices_five (Nat.div_lt_of_lt_mul (by rwa [mul_comm])) iBound xBound yBound (Nat.mod_lt a coutPos)
  · dsimp only [groupSource,at5]
    rw [Nat.div_add_mod']

variable (coutPos : 0 < cout) (c0Pos : 0 < c0) (ePos : 0 < e) (whole : data.length = [h,w,c,groups * cout].prod * size)
include whole

theorem groupStep_ok :
    ∀ index ∈ indices [groups,c,h,w,cout], ∀ dst : List UInt8, dst.length = (groupAxes h w c cout c0 groups e).prod * size →
      at5 .ok (groupStep data size h w c cout c0 groups e) index dst = .ok (overwrite dst
        (offset (groupAxes h w c cout c0 groups e)
          ((groupLayout h w c cout c0 groups e coutPos c0Pos ePos).place (groupSource cout index)) * size)
        (element size data (offset [h,w,c,groups * cout] (groupSource cout index)))) := by
  simp only [forall_indices_cons,forall_indices_nil]
  intro g gBound i iBound x xBound y yBound m mBound dst length
  have source := groupSource_mem _ (mem_indices_five gBound iBound xBound yBound mBound)
  have target := (groupLayout h w c cout c0 groups e coutPos c0Pos ePos).inside _ source
  have targetEq : offset (groupAxes h w c cout c0 groups e)
      ((groupLayout h w c cout c0 groups e coutPos c0Pos ePos).place (groupSource cout [g,i,x,y,m])) =
      g / e * blocks (e * c) c0 * h * w * (blocks (e * cout) 16 * 16) * c0 +
        (g % e * c + i) / c0 * h * w * (blocks (e * cout) 16 * 16) * c0 + x * w * (blocks (e * cout) 16 * 16) * c0 +
        y * (blocks (e * cout) 16 * 16) * c0 + (g % e * cout + m) * c0 + (g % e * c + i) % c0 := by
    simp only [groupLayout,groupSource,at4,at5,groupAxes,offset,prod_cons,prod_nil,(tile_parts mBound).1,
      (tile_parts mBound).2]
    ring
  have sourceEq : offset [h,w,c,groups * cout] (groupSource cout [g,i,x,y,m]) =
      x * w * c * (groups * cout) + y * c * (groups * cout) + i * (groups * cout) + (g * cout + m) := by
    simp only [groupSource,at5,offset,prod_cons,prod_nil]
    ring
  dsimp only [at5]
  rw [groupStep,← targetEq,← sourceEq]
  have fits : _ * size + size ≤ _ * size := cell_bound (offset_lt target)
  have read : _ * size + size ≤ _ * size := cell_bound (offset_lt source)
  exact if_neg (by omega)

theorem groupLoops_spec : ∃ tiled,
    nest [groups,c,h,w,cout] (at5 .ok (groupStep data size h w c cout c0 groups e))
      (replicate ((groupAxes h w c cout c0 groups e).prod * size) 0) = .ok tiled ∧
    (groupLayout h w c cout c0 groups e coutPos c0Pos ePos).Renders size data tiled := by
  have apart : ((indices [groups,c,h,w,cout]).map fun index => offset (groupAxes h w c cout c0 groups e)
      ((groupLayout h w c cout c0 groups e coutPos c0Pos ePos).place (groupSource cout index))).Nodup := by
    apply List.Nodup.map_on ?_ (nodup_indices _)
    intro index member other member' same
    have source := groupSource_mem index member
    have source' := groupSource_mem other member'
    apply groupSource_injective index member other member'
    apply (groupLayout h w c cout c0 groups e coutPos c0Pos ePos).injective _ source _ source'
    exact offset_injective ((groupLayout h w c cout c0 groups e coutPos c0Pos ePos).inside _ source)
      ((groupLayout h w c cout c0 groups e coutPos c0Pos ePos).inside _ source') same
  obtain ⟨tiled,result,length,written,kept⟩ := foldlM_writes (indices [groups,c,h,w,cout]) apart
    (fun index member => offset_lt ((groupLayout h w c cout c0 groups e coutPos c0Pos ePos).inside _
      (groupSource_mem index member)))
    (fun index member => length_element whole (offset_lt (groupSource_mem index member)))
    (groupStep_ok coutPos c0Pos ePos whole) (replicate ((groupAxes h w c cout c0 groups e).prod * size) 0)
    length_replicate
  rw [← nest_eq] at result
  refine ⟨tiled,result,length,?_,?_⟩
  · intro index member
    obtain ⟨origin,there,rfl⟩ := groupSource_onto coutPos index member
    exact written origin there
  · intro index member outside
    rw [kept,element_replicate 0 (offset_lt member)]
    intro target
    obtain ⟨origin,there,same⟩ := mem_map.mp target
    have source := groupSource_mem origin there
    exact outside _ source
      (offset_injective ((groupLayout h w c cout c0 groups e coutPos c0Pos ePos).inside _ source) member same)

end Layout

end GraphEngine.Formats
