import GraphEngine.Fusion.ConnectionGrowth

/-! Whether the matrix still holds exactly the paths after a sequence of updates, in the graph in which the members of each
update are connected. `ExpandAndUpdate` always keeps it exact, `Update` only if what it leaves out is there already. -/
namespace GraphEngine.Fusion

open Relation Lib List LargeBitmap ConnectionMatrix

variable {Name : Type} [DecidableEq Name]

inductive MatrixCall (Name : Type) where
  | update (fusionNodes : List Name)
  | expandAndUpdate (fusionNodes : List Name) (name : Name)

namespace MatrixCall

def fusionNodes : MatrixCall Name → List Name
  | update nodes => nodes
  | expandAndUpdate nodes _ => nodes

def fresh : MatrixCall Name → List Name
  | update _ => []
  | expandAndUpdate _ name => [name]

def members (call : MatrixCall Name) : List Name := call.fresh ++ call.fusionNodes

def run (graph : Graph Name) (matrix : ConnectionMatrix Name) : MatrixCall Name → ConnectionMatrix Name
  | update nodes => matrix.update graph nodes
  | expandAndUpdate nodes name => matrix.expandAndUpdate nodes name

end MatrixCall

variable {graph : Graph Name} {calls : List (MatrixCall Name)} {call : MatrixCall Name} {fusionNodes : List Name}
  {name x y : Name}

section Calls
variable (graph : Graph Name) (calls : List (MatrixCall Name))

def matrixAfter : ConnectionMatrix Name :=
  calls.foldl (MatrixCall.run graph) (.generate graph)

def knownNames : List Name :=
  graph.nodes ++ calls.flatMap MatrixCall.fresh

def Linked (u v : Name) : Prop :=
  graph.Edge u v ∨ ∃ call ∈ calls, u ∈ call.members ∧ v ∈ call.members

def Reach : Name → Name → Prop :=
  ReflTransGen (Linked graph calls)

inductive ValidCalls (graph : Graph Name) : List (MatrixCall Name) → Prop
  | nil : ValidCalls graph []
  | concat {calls : List (MatrixCall Name)} {call : MatrixCall Name} (earlier : ValidCalls graph calls)
      (known : ∀ node ∈ call.fusionNodes, node ∈ knownNames graph calls)
      (unknown : ∀ node ∈ call.fresh, node ∉ knownNames graph calls) : ValidCalls graph (calls ++ [call])

def ExactAfter : Prop :=
  ∀ x ∈ knownNames graph calls, ∀ y ∈ knownNames graph calls,
    (matrixAfter graph calls).isConnected x y = true ↔ Reach graph calls x y

def ExactThroughout : Prop :=
  ∀ before, before <+: calls → ExactAfter graph before

/-- A path through the given nodes exists already, unless `Update` sees its end in the graph and the column of its
start among the words of the graph. -/
def Harmless (fusionNodes : List Name) : Prop :=
  ∀ x ∈ knownNames graph calls, ∀ y ∈ knownNames graph calls,
    (∃ s ∈ fusionNodes, Reach graph calls x s) → (∃ t ∈ fusionNodes, Reach graph calls t y) →
      Reach graph calls x y ∨ y ∈ graph.nodes ∧
        (knownNames graph calls).idxOf x / kBitsEachValue < alignArraySize graph.nodes.length

variable (call : MatrixCall Name)

theorem matrixAfter_concat :
    matrixAfter graph (calls ++ [call]) = call.run graph (matrixAfter graph calls) := by
  rw [matrixAfter,foldl_append]
  rfl

section
omit [DecidableEq Name]

theorem knownNames_concat :
    knownNames graph (calls ++ [call]) = knownNames graph calls ++ call.fresh := by
  rw [knownNames,flatMap_append,flatMap_singleton,← append_assoc]
  rfl

theorem linked_concat :
    Linked graph (calls ++ [call]) = WithClique (Linked graph calls) call.members := by
  ext u v
  unfold Linked WithClique
  simp only [mem_append,mem_singleton,or_and_right,exists_or,exists_eq_left,or_assoc]

theorem reach_concat (x y : Name) :
    Reach graph (calls ++ [call]) x y ↔ Reach graph calls x y ∨
      (∃ t ∈ call.members, Reach graph calls t y) ∧ ∃ s ∈ call.members, Reach graph calls x s := by
  unfold Reach
  rw [linked_concat,reach_withClique]
  apply or_congr Iff.rfl
  constructor
  · rintro ⟨s,isS,t,isT,first,second⟩
    exact ⟨⟨t,isT,second⟩,s,isS,first⟩
  · rintro ⟨⟨t,isT,second⟩,s,isS,first⟩
    exact ⟨s,isS,t,isT,first,second⟩

end

end Calls

theorem ValidCalls.linked (valid : ValidCalls graph calls) (sorted : graph.Topological) {u v : Name}
    (linked : Linked graph calls u v) : u ∈ knownNames graph calls ∧ v ∈ knownNames graph calls := by
  induction valid with
  | nil =>
    rcases linked with edge | ⟨call,none_,-⟩
    · have ends := sorted.forward u v edge
      exact ⟨mem_append_left _ ends.1,mem_append_left _ ends.2.1⟩
    · exact absurd none_ not_mem_nil
  | @concat calls call earlier known unknown ih =>
    rw [linked_concat] at linked
    rw [knownNames_concat]
    rcases linked with before | ⟨isU,isV⟩
    · exact ⟨mem_append_left _ (ih before).1,mem_append_left _ (ih before).2⟩
    · have member : ∀ node ∈ call.members, node ∈ knownNames graph calls ++ call.fresh := by
        exact forall_mem_append.mpr ⟨fun _ => mem_append_right _,fun node fused => mem_append_left _ (known node fused)⟩
      exact ⟨member u isU,member v isV⟩

namespace ConnectionMatrix

omit [DecidableEq Name] in
theorem make_row (graph : Graph Name) (i : Nat) : (make graph).bitMaps.getD i (.zero 0) =
    if i < graph.nodes.length then .zero graph.nodes.length else .zero 0 := by
  unfold make
  rw [getD_eq_getElem?_getD,getElem?_map]
  split
  · rename_i inside
    rw [getElem?_eq_getElem inside]
    rfl
  · rename_i outside
    rw [getElem?_eq_none (Nat.not_lt.mp outside)]
    rfl

theorem make_sound (sorted : graph.Topological) : (make graph).Sound := by
  have length : (make graph).bitMaps.length = graph.nodes.length := length_map _
  refine ⟨sorted.nodup,length.ge,?_,?_⟩
  · intro i inside
    rw [length] at inside ⊢
    rw [make_row,if_pos inside]
    rfl
  · intro i j set
    rw [cell,make_row] at set
    split at set <;> simp [wordBit_zero] at set

variable {matrix : ConnectionMatrix Name} {node : Name}

section
variable (sound : matrix.Sound) (known : node ∈ matrix.names)
include sound known

theorem Sound.setBitMap {bitmap : LargeBitmap} (size : bitmap.size = matrix.bitMaps.length)
    (bits : ∀ j, bitmap.wordBit j = true → j < matrix.names.length) : (matrix.setBitMap node bitmap).Sound := by
  have length : (matrix.setBitMap node bitmap).bitMaps.length = matrix.bitMaps.length := length_set
  have inside := (getIndex_lt known).trans_le sound.capacity
  have rows : ∀ i, (matrix.setBitMap node bitmap).bitMaps.getD i (.zero 0) =
      if matrix.getIndex node = i then bitmap else matrix.bitMaps.getD i (.zero 0) := by
    intro i
    change (matrix.bitMaps.set _ _).getD i _ = _
    rw [getD_eq_getElem?_getD,getElem?_set]
    by_cases same : matrix.getIndex node = i
    · rw [if_pos same,if_pos same,if_pos inside,Option.getD_some]
    · rw [if_neg same,if_neg same]
      rw [getD_eq_getElem?_getD]
  refine ⟨sound.nodup,by rw [length]; exact sound.capacity,?_,?_⟩
  · intro i within_
    rw [length] at within_ ⊢
    rw [rows]
    split
    · exact size
    · exact sound.sizes i within_
  · intro i j set
    rw [cell,rows] at set
    split at set
    · rename_i same
      exact ⟨same ▸ getIndex_lt known,bits j set⟩
    · exact sound.used i j set

theorem Sound.bitMap : (matrix.getBitMap node).size = matrix.bitMaps.length ∧
      ∀ j, (matrix.getBitMap node).wordBit j = true → j < matrix.names.length :=
  ⟨sound.sizes _ ((getIndex_lt known).trans_le sound.capacity),fun j set => (sound.used _ j set).2⟩

theorem Sound.setConnectivity {inputs : List Name} (inputsKnown : ∀ input ∈ inputs, input ∈ matrix.names) :
    (matrix.setConnectivity inputs node).Sound := by
  have joined : ∀ (rest : List Name) (start : LargeBitmap), (∀ input ∈ rest, input ∈ matrix.names) →
      start.size = matrix.bitMaps.length → (∀ j, start.wordBit j = true → j < matrix.names.length) →
      ∀ j, (rest.foldl (fun bitmap input => if input ≠ node then bitmap.or (matrix.getBitMap input) else bitmap)
        start).wordBit j = true → j < matrix.names.length := by
    intro rest
    induction rest with
    | nil => exact fun _ _ _ bits => bits
    | cons input rest ih =>
      intro start restKnown size bits
      rw [foldl_cons]
      have later := fun other inRest => restKnown other (mem_cons_of_mem _ inRest)
      obtain ⟨sizeInput,bitsInput⟩ := sound.bitMap (restKnown input mem_cons_self)
      split
      · apply ih (start.or (matrix.getBitMap input)) later size
        intro j set
        rw [wordBit_or_of_size (size.trans sizeInput.symm),Bool.or_eq_true] at set
        exact set.elim (bits j) (bitsInput j)
      · exact ih _ later size bits
  obtain ⟨size,bits⟩ := sound.bitMap known
  have start : ∀ bitmap : LargeBitmap, bitmap.size = matrix.bitMaps.length →
      (∀ j, bitmap.wordBit j = true → j < matrix.names.length) →
      ∀ j, (bitmap.setBit (matrix.getIndex node)).wordBit j = true → j < matrix.names.length := by
    intro bitmap same inside j set
    rw [wordBit_setBit (by rw [same]; exact (getIndex_lt known).trans_le sound.capacity),Bool.or_eq_true,
      decide_eq_true_eq] at set
    rcases set with old | rfl
    · exact inside j old
    · exact getIndex_lt known
  unfold ConnectionMatrix.setConnectivity
  dsimp only
  apply sound.setBitMap known
  · rw [join_size,setBit_size]
    split
    · exact size
    · exact size
  · apply joined _ _ inputsKnown
    · rw [setBit_size]
      split
      · exact size
      · exact size
    · split
      · exact start _ size bits
      · apply start ((matrix.getBitMap node).setValues 0) size
        intro j set
        rw [wordBit_setValues_zero] at set
        cases set

end

theorem generate_sound (sorted : graph.Topological) : (generate graph).Sound := by
  have run : ∀ (nodes : List Name) (matrix : ConnectionMatrix Name), (∀ node ∈ nodes, node ∈ graph.nodes) →
      matrix.names = graph.nodes → matrix.Sound → (nodes.foldl (fun matrix node =>
        matrix.setConnectivity (graph.inAllNodes node) node) matrix).Sound := by
    intro nodes
    induction nodes with
    | nil => exact fun _ _ _ sound => sound
    | cons node nodes ih =>
      intro matrix known names sound
      rw [foldl_cons]
      apply ih _ (fun other later => known other (mem_cons_of_mem _ later))
      · exact names
      · apply sound.setConnectivity
        · rw [names]
          exact known node mem_cons_self
        · intro input isInput
          rw [names]
          exact (sorted.forward _ _ (Graph.mem_inAllNodes.mp isInput)).1
  exact run graph.nodes (make graph) (fun _ listed => listed) rfl (make_sound sorted)

end ConnectionMatrix

section

variable (valid : ValidCalls graph calls)
include valid

theorem ValidCalls.sound (sorted : graph.Topological) :
    (matrixAfter graph calls).Sound ∧ (matrixAfter graph calls).names = knownNames graph calls := by
  induction valid with
  | nil => exact ⟨generate_sound sorted,(generate_names graph).trans (append_nil _).symm⟩
  | @concat calls call earlier known unknown ih =>
    obtain ⟨sound,names⟩ := ih
    rw [matrixAfter_concat,knownNames_concat]
    rw [← names] at known unknown
    cases call with
    | update nodes =>
      refine ⟨sound.update (names.trans rfl) known,?_⟩
      exact ((spread_grows nodes _ graph.nodes _).1.trans names).trans (append_nil _).symm
    | expandAndUpdate nodes name =>
      refine ⟨sound.expandAndUpdate (unknown name (mem_singleton.mpr rfl)) known,?_⟩
      rw [← names]
      rfl

theorem exactAfter_iff (sorted : graph.Topological) : ExactAfter graph calls ↔
    ∀ x ∈ knownNames graph calls, ∀ y ∈ knownNames graph calls,
      (matrixAfter graph calls).cell ((knownNames graph calls).idxOf y) ((knownNames graph calls).idxOf x) = true ↔
        Reach graph calls x y := by
  obtain ⟨sound,names⟩ := valid.sound sorted
  have index : ∀ z ∈ knownNames graph calls, (matrixAfter graph calls).getIndex z = (knownNames graph calls).idxOf z := by
    intro z known
    rw [getIndex,names,if_pos known]
  unfold ExactAfter
  apply forall₂_congr
  intro x knownX
  apply forall₂_congr
  intro y knownY
  rw [sound.isConnected (names ▸ knownX) (names ▸ knownY),index x knownX,index y knownY]

theorem ValidCalls.getIndex (sorted : graph.Topological)
    (known : x ∈ knownNames graph calls) : (matrixAfter graph calls).getIndex x = (knownNames graph calls).idxOf x := by
  rw [ConnectionMatrix.getIndex,(valid.sound sorted).2,if_pos known]

end

section
variable (exact_ : ExactAfter graph calls) (sorted : graph.Topological) (valid : ValidCalls graph calls)
  (known : ∀ node ∈ fusionNodes, node ∈ knownNames graph calls)
include exact_ sorted valid known

theorem ExactAfter.row (knownY : y ∈ knownNames graph calls) :
    (∃ t ∈ fusionNodes, (matrixAfter graph calls).cell ((knownNames graph calls).idxOf y)
      ((matrixAfter graph calls).getIndex t) = true) ↔ ∃ t ∈ fusionNodes, Reach graph calls t y := by
  apply exists_congr
  intro t
  apply and_congr_right
  intro fused
  rw [valid.getIndex sorted (known t fused),(exactAfter_iff valid sorted).mp exact_ t (known t fused) y knownY]

theorem ExactAfter.column (knownX : x ∈ knownNames graph calls) :
    (∃ s ∈ fusionNodes, (matrixAfter graph calls).cell ((matrixAfter graph calls).getIndex s)
      ((knownNames graph calls).idxOf x) = true) ↔ ∃ s ∈ fusionNodes, Reach graph calls x s := by
  apply exists_congr
  intro s
  apply and_congr_right
  intro fused
  rw [valid.getIndex sorted (known s fused),(exactAfter_iff valid sorted).mp exact_ x knownX s (known s fused)]

theorem ExactAfter.expandAndUpdate (unknown : name ∉ knownNames graph calls) :
    ExactAfter graph (calls ++ [.expandAndUpdate fusionNodes name]) := by
  obtain ⟨sound,names⟩ := valid.sound sorted
  have valid' : ValidCalls graph (calls ++ [.expandAndUpdate fusionNodes name]) :=
    valid.concat known fun node isNew => (mem_singleton.mp isNew) ▸ unknown
  have cells := (exactAfter_iff valid sorted).mp exact_
  -- the new node has no edges yet
  have fromNew : ∀ z, Reach graph calls name z ↔ name = z :=
    fun z => reach_of_no_successor fun b linked => unknown (valid.linked sorted linked).1
  have toNew : ∀ z, Reach graph calls z name ↔ z = name :=
    fun z => reach_of_no_predecessor fun a linked => unknown (valid.linked sorted linked).2
  have last : (knownNames graph calls ++ [name]).idxOf name = (knownNames graph calls).length := by
    rw [idxOf_append_of_notMem unknown,idxOf_cons_self,add_zero]
  rw [exactAfter_iff valid' sorted,matrixAfter_concat,knownNames_concat]
  intro x knownX y knownY
  change x ∈ knownNames graph calls ++ [name] at knownX
  change y ∈ knownNames graph calls ++ [name] at knownY
  change ((matrixAfter graph calls).expandAndUpdate fusionNodes name).cell
    ((knownNames graph calls ++ [name]).idxOf y) ((knownNames graph calls ++ [name]).idxOf x) = true ↔ _
  rw [expandAndUpdate_cell sound (names ▸ unknown) (fun node fused => names ▸ known node fused),
    reach_concat,names]
  have throughRow : (∃ t ∈ MatrixCall.members (.expandAndUpdate fusionNodes name), Reach graph calls t y) ↔
      name = y ∨ ∃ t ∈ fusionNodes, Reach graph calls t y := by
    rw [← fromNew]
    exact exists_mem_cons_iff ..
  have throughColumn : (∃ s ∈ MatrixCall.members (.expandAndUpdate fusionNodes name), Reach graph calls x s) ↔
      x = name ∨ ∃ s ∈ fusionNodes, Reach graph calls x s := by
    rw [← toNew]
    exact exists_mem_cons_iff ..
  have free : ∀ i j, (knownNames graph calls).length ≤ i ∨ (knownNames graph calls).length ≤ j →
      (matrixAfter graph calls).cell i j = false := fun i j beyond => sound.unused (names ▸ beyond)
  rw [throughRow,throughColumn]
  rcases mem_append.mp knownX with oldX | newX <;> rcases mem_append.mp knownY with oldY | newY
  · have apartX : x ≠ name := fun same => unknown (same ▸ oldX)
    have apartY : name ≠ y := fun same => unknown (same ▸ oldY)
    rw [idxOf_append_of_mem oldX,idxOf_append_of_mem oldY,cells x oldX y oldY,exact_.row sorted valid known oldY,
      exact_.column sorted valid known oldX]
    simp [apartX,apartY,Nat.ne_of_lt (idxOf_lt_length_of_mem oldX),Nat.ne_of_lt (idxOf_lt_length_of_mem oldY)]
  · have apartX : x ≠ name := fun same => unknown (same ▸ oldX)
    rw [mem_singleton] at newY
    rw [idxOf_append_of_mem oldX,newY,last,exact_.column sorted valid known oldX,free _ _ (.inl le_rfl),toNew]
    simp [apartX,Nat.ne_of_lt (idxOf_lt_length_of_mem oldX)]
  · have apartY : name ≠ y := fun same => unknown (same ▸ oldY)
    rw [mem_singleton] at newX
    rw [idxOf_append_of_mem oldY,newX,last,exact_.row sorted valid known oldY,free _ _ (.inr le_rfl),fromNew]
    simp [apartY,Nat.ne_of_lt (idxOf_lt_length_of_mem oldY)]
  · rw [mem_singleton] at newX newY
    simp [newX,newY,last]

theorem ExactAfter.update_iff : ExactAfter graph (calls ++ [.update fusionNodes]) ↔ Harmless graph calls fusionNodes := by
  obtain ⟨sound,names⟩ := valid.sound sorted
  have valid' : ValidCalls graph (calls ++ [.update fusionNodes]) :=
    valid.concat known fun node none_ => absurd none_ not_mem_nil
  have cells := (exactAfter_iff valid sorted).mp exact_
  have same : knownNames graph calls ++ MatrixCall.fresh (.update fusionNodes) = knownNames graph calls :=
    append_nil _
  rw [exactAfter_iff valid' sorted,matrixAfter_concat,knownNames_concat,same]
  unfold Harmless
  apply forall₂_congr
  intro x knownX
  apply forall₂_congr
  intro y knownY
  have listed : (knownNames graph calls).idxOf y < graph.nodes.length ↔ y ∈ graph.nodes := by
    constructor
    · intro small
      by_contra outside
      rw [knownNames,idxOf_append_of_notMem outside] at small
      omega
    · intro isNode
      rw [knownNames,idxOf_append_of_mem isNode]
      exact idxOf_lt_length_of_mem isNode
  change (((matrixAfter graph calls).update graph fusionNodes).cell _ _ = true ↔ _) ↔ _
  rw [update_cell sound (names.trans rfl) (fun node fused => names ▸ known node fused),reach_concat,
    cells x knownX y knownY,listed,exact_.row sorted valid known knownY,exact_.column sorted valid known knownX]
  have gap : ∀ {reached listed leaves inside enters : Prop}, ((reached ∨ (listed ∧ leaves) ∧ inside ∧ enters) ↔
      reached ∨ leaves ∧ enters) ↔ (enters → leaves → reached ∨ listed ∧ inside) := by tauto
  exact gap

end

theorem exactAfter_generate (sorted : graph.Topological) : ExactAfter graph [] := by
  intro x knownX y knownY
  have reach : Reach graph [] x y ↔ ReflTransGen graph.Edge x y := by
    have edges : Linked graph [] = graph.Edge := by
      ext u v
      simp [Linked]
    rw [Reach,edges]
  rw [knownNames,flatMap_nil,append_nil] at knownX knownY
  rw [reach]
  exact generate_isConnected sorted knownX knownY

/-- The matrix is exact after each call just if each `Update` is harmless. -/
theorem exactThroughout_iff (sorted : graph.Topological) (valid : ValidCalls graph calls) :
    ExactThroughout graph calls ↔
      ∀ before nodes, before ++ [.update nodes] <+: calls → Harmless graph before nodes := by
  unfold ExactThroughout
  induction valid with
  | nil =>
    constructor
    · intro _ before nodes front
      exact absurd (prefix_nil.mp front) (append_ne_nil_of_right_ne_nil _ (cons_ne_nil _ _))
    · intro _ before front
      rw [prefix_nil.mp front]
      exact exactAfter_generate sorted
  | @concat calls call valid known unknown ih =>
    have first : (∀ before, before <+: calls ++ [call] → ExactAfter graph before) ↔
        (∀ before, before <+: calls → ExactAfter graph before) ∧ ExactAfter graph (calls ++ [call]) := by
      simp only [prefix_concat_iff,or_imp,forall_and,forall_eq]
      exact and_comm
    have second : (∀ before nodes, before ++ [.update nodes] <+: calls ++ [call] → Harmless graph before nodes) ↔
        (∀ before nodes, before ++ [.update nodes] <+: calls → Harmless graph before nodes) ∧
          ∀ nodes, call = .update nodes → Harmless graph calls nodes := by
      constructor
      · intro all
        refine ⟨fun before nodes front => all before nodes (front.trans (prefix_append _ _)),?_⟩
        rintro nodes rfl
        exact all calls nodes prefix_rfl
      · rintro ⟨earlier,last⟩ before nodes front
        rcases prefix_concat_iff.mp front with whole | front
        · obtain ⟨rfl,isCall⟩ := append_inj whole (by simpa using congrArg List.length whole)
          exact last nodes (List.cons.inj isCall).1.symm
        · exact earlier before nodes front
    rw [first,second,← ih]
    apply and_congr_right
    intro exact_
    have now := exact_ calls prefix_rfl
    cases call with
    | update nodes =>
      have step : ExactAfter graph (calls ++ [.update nodes]) ↔ Harmless graph calls nodes :=
        now.update_iff sorted valid known
      rw [step]
      constructor
      · rintro harmless _ ⟨⟩
        exact harmless
      · exact fun all => all nodes rfl
    | expandAndUpdate nodes name =>
      have kept : ExactAfter graph (calls ++ [.expandAndUpdate nodes name]) :=
        now.expandAndUpdate sorted valid known (unknown name mem_cons_self)
      constructor
      · rintro _ _ ⟨⟩
      · exact fun _ => kept

theorem harmless_of_known (same : knownNames graph calls = graph.nodes) (fusionNodes : List Name) :
    Harmless graph calls fusionNodes := by
  intro x knownX y knownY _ _
  rw [same] at knownX knownY ⊢
  refine .inr ⟨knownY,?_⟩
  have inside := idxOf_lt_length_of_mem knownX
  unfold alignArraySize kBitsEachValue
  omega

def trio : Graph Nat := ⟨[0,1,2],[]⟩

theorem trio_sorted : trio.Topological := ⟨by decide,fun u v edge => absurd edge not_mem_nil⟩

theorem trio_updateFirst : ExactThroughout trio [.update [0,1],.expandAndUpdate [0] 3] := by
  have first : ValidCalls trio [.update [0,1]] := .concat .nil (by decide) (by decide)
  have both : ValidCalls trio [.update [0,1],.expandAndUpdate [0] 3] := first.concat (by decide) (by decide)
  apply (exactThroughout_iff trio_sorted both).mpr
  intro before nodes front
  cases before with
  | nil => exact harmless_of_known rfl nodes
  | cons call rest =>
    have second := (cons_prefix_cons.mp front).2
    cases rest with
    | nil => cases (cons_prefix_cons.mp second).1
    | cons other rest => simpa using (cons_prefix_cons.mp second).2.length_le

/-- An update after a new node: node 1 is fused with node 0 and node 0 with node 3, but the row of node 3 is not
updated. -/
theorem trio_expandFirst : trio.Topological ∧ ValidCalls trio [.expandAndUpdate [0] 3,.update [0,1]] ∧
    (matrixAfter trio [.expandAndUpdate [0] 3,.update [0,1]]).isConnected 1 3 = false ∧
    Reach trio [.expandAndUpdate [0] 3,.update [0,1]] 1 3 := by
  have first : ValidCalls trio [.expandAndUpdate [0] 3] := .concat .nil (by decide) (by decide)
  refine ⟨trio_sorted,first.concat (by decide) (by decide),by decide +kernel,?_⟩
  apply ReflTransGen.tail (b := 0)
  · exact .single (.inr ⟨.update [0,1],by simp,by decide,by decide⟩)
  · exact .inr ⟨.expandAndUpdate [0] 3,by simp,by decide,by decide⟩

end GraphEngine.Fusion
