import Mathlib.Data.Multiset.AddSub
import Mathlib.Logic.Equiv.Basic
import GraphEngine.FastGraph.QuickListRefinement

/-! Exchanging two lists, sorting a list, and whole sequences of calls. -/

namespace GraphEngine.FastGraph
open Lib Function List Option
open Equiv (swap)
open Heap (carryIn merge setOwners sortLoop mergeCounters)

variable {Addr Id : Type} {heap heap' : Heap Addr Id} {list other : Id}
  {items front back : List Addr} {x dst : Addr} {contents : Contents Addr Id}

theorem ListRing.walk (ok : ListRing heap list items) :
    List.IsChain (fun a b => heap.next a = some b) (items ++ [heap.head list]) :=
  (ok.ring.tail).imp fun _ _ linked => linked.1

section Merging
variable (comp : Addr → Addr → Bool)

def fillCounters (counters : List (List Addr)) (items : List Addr) : List (List Addr) :=
  items.foldl (fun counters element => Heap.carryIn comp counters [element]) counters

def sortItems (items : List Addr) : List Addr :=
  if items.length ≤ 1 then items else Heap.mergeCounters comp (fillCounters comp [] items)

/-- A view of lists that appending composes and that the merge of two runs does not change. -/
structure MergeKeeps {View : Type} (view : List Addr → View) (op : View → View → View) (Run : List Addr → Prop) : Prop where
  append : ∀ first second, view (first ++ second) = op (view first) (view second)
  short : ∀ items, items.length ≤ 1 → Run items
  merged : ∀ first second, Run first → Run second →
    Run (Heap.merge comp first second) ∧ view (Heap.merge comp first second) = view (first ++ second)

variable {comp} {View : Type} {view : List Addr → View} {op : View → View → View} {Run : List Addr → Prop}

namespace MergeKeeps

variable (keeps : MergeKeeps comp view op Run)
include keeps

-- the last counter holds the elements that came first
theorem carryIn (counters : List (List Addr)) (carry : List Addr) (runs : ∀ counter ∈ counters, Run counter) (run : Run carry) :
    (∀ counter ∈ Heap.carryIn comp counters carry, Run counter) ∧
      view (Heap.carryIn comp counters carry).reverse.flatten = view (counters.reverse.flatten ++ carry) := by
  induction counters generalizing carry with
  | nil => simp [Heap.carryIn,run]
  | cons counter counters ih =>
    obtain ⟨here,later⟩ := forall_mem_cons.mp runs
    unfold Heap.carryIn
    split
    · next empty => exact ⟨forall_mem_cons.mpr ⟨run,later⟩,by simp [empty]⟩
    · obtain ⟨isRun,same⟩ := keeps.merged counter carry here run
      obtain ⟨carried,kept⟩ := ih _ later isRun
      refine ⟨forall_mem_cons.mpr ⟨keeps.short [] (Nat.zero_le 1),carried⟩,?_⟩
      rw [keeps.append,same] at kept
      simpa [keeps.append] using kept

theorem fillCounters (items : List Addr) (counters : List (List Addr)) (runs : ∀ counter ∈ counters, Run counter) :
    (∀ counter ∈ fillCounters comp counters items, Run counter) ∧
      view (fillCounters comp counters items).reverse.flatten = view (counters.reverse.flatten ++ items) := by
  induction items generalizing counters with
  | nil => exact ⟨runs,by rw [append_nil]; rfl⟩
  | cons item items ih =>
    obtain ⟨carried,kept⟩ := keeps.carryIn counters [item] runs (keeps.short _ (le_refl 1))
    obtain ⟨filled,same⟩ := ih _ carried
    refine ⟨filled,same.trans ?_⟩
    rw [keeps.append,kept,← keeps.append,append_assoc,singleton_append]

theorem mergeRest (rest : List (List Addr)) (merged : List Addr) (runs : ∀ counter ∈ rest, Run counter) (run : Run merged) :
    Run (rest.foldl (fun merged counter => merge comp counter merged) merged) ∧
      view (rest.foldl (fun merged counter => merge comp counter merged) merged) = view (rest.reverse.flatten ++ merged) := by
  induction rest generalizing merged with
  | nil => exact ⟨run,rfl⟩
  | cons counter rest ih =>
    obtain ⟨here,later⟩ := forall_mem_cons.mp runs
    obtain ⟨isRun,same⟩ := keeps.merged counter merged here run
    obtain ⟨last,kept⟩ := ih _ later isRun
    refine ⟨last,kept.trans ?_⟩
    rw [keeps.append,same]
    simp [keeps.append]

theorem sortItems (items : List Addr) : Run (sortItems comp items) ∧ view (sortItems comp items) = view items := by
  unfold FastGraph.sortItems
  split
  · next short => exact ⟨keeps.short items short,rfl⟩
  · obtain ⟨runs,same⟩ := keeps.fillCounters items [] nofun
    unfold mergeCounters
    split
    · next none_ => exact ⟨keeps.short [] (Nat.zero_le 1),by simpa [none_] using same⟩
    · next first rest filled =>
      rw [filled] at runs same
      obtain ⟨run,rest⟩ := forall_mem_cons.mp runs
      obtain ⟨last,kept⟩ := keeps.mergeRest _ first rest run
      exact ⟨last,kept.trans (by simpa using same)⟩

end MergeKeeps

theorem sortItems_perm (comp : Addr → Addr → Bool) (items : List Addr) : (sortItems comp items).Perm items := by
  have keeps : MergeKeeps comp (fun items => (items : Multiset Addr)) (· + ·) fun _ => True :=
    ⟨fun _ _ => rfl,fun _ _ => trivial,fun _ _ _ _ => ⟨trivial,Multiset.coe_eq_coe.mpr (merge_perm_append ..)⟩⟩
  exact Multiset.coe_eq_coe.mp (keeps.sortItems items).2

def equivalent (comp : Addr → Addr → Bool) (x y : Addr) : Bool := !comp x y && !comp y x

section Order
variable (order : IsStrictWeakOrder Addr fun a b => comp a b = true)
include order

theorem notLess_trans (a b c : Addr) (ab : (!comp b a) = true) (bc : (!comp c b) = true) : (!comp c a) = true := by
  rw [Bool.not_eq_true'] at ab bc ⊢
  by_contra less
  rw [Bool.not_eq_false] at less
  cases up : comp a b with
  | true => exact absurd (order.trans c a b less up) (by simp [bc])
  | false =>
    cases down : comp b c with
    | true => exact absurd (order.trans b c a down less) (by simp [ab])
    | false => exact (order.incomp_trans a b c (by simp [up,ab]) (by simp [down,bc])).2 less

theorem notLess_total (a b : Addr) : (!comp b a || !comp a b) = true := by
  cases less : comp b a with
  | false => rfl
  | true =>
    have same : comp a b = false := by
      by_contra greater
      exact order.irrefl a (order.trans a b a (by simpa using greater) less)
    simp [same]

/-- Where an element of the second list goes first, none of the first list is equivalent to it. -/
theorem merge_filter (x : Addr) (first second : List Addr) (sorted : first.Pairwise fun a b => (!comp b a) = true) :
    (Heap.merge comp first second).filter (equivalent comp x) = (first ++ second).filter (equivalent comp x) := by
  unfold Heap.merge
  induction first generalizing second with
  | nil => simp
  | cons a first ih =>
    obtain ⟨least,later⟩ := pairwise_cons.mp sorted
    induction second with
    | nil => simp
    | cons b second ih₂ =>
      rw [cons_merge_cons]
      split
      · rw [filter_cons,ih (b :: second) later,cons_append,filter_cons]
      · next less =>
        rw [filter_cons,ih₂,filter_append,filter_append,@filter_cons _ b second]
        split
        · next same =>
          have nobody : (a :: first).filter (equivalent comp x) = [] := by
            rw [filter_eq_nil_iff]
            intro c inside same'
            simp only [equivalent,Bool.and_eq_true] at same same'
            have ac : (!comp c a) = true := by
              rcases mem_cons.mp inside with rfl | inside
              · simpa using notLess_total order c c
              · exact least c inside
            have xb := notLess_trans order c x b same'.1 same.2
            exact less (notLess_trans order a c b ac xb)
          rw [nobody,nil_append,nil_append]
        · rfl

theorem sortItems_sorted (items : List Addr) : (sortItems comp items).Pairwise (fun a b => comp b a = false) ∧
    ∀ x, (sortItems comp items).filter (equivalent comp x) = items.filter (equivalent comp x) := by
  have keeps (x : Addr) : MergeKeeps comp (filter (equivalent comp x)) (· ++ ·) (·.Pairwise fun a b => (!comp b a) = true) := by
    refine ⟨fun _ _ => filter_append ..,fun items short => ?_,fun first second run run₂ =>
      ⟨?_,merge_filter order x first second run⟩⟩
    · match items,short with
      | [],_ => exact .nil
      | [_],_ => exact pairwise_singleton ..
    · exact pairwise_merge (notLess_trans order) (notLess_total order) _ _ run run₂
  refine ⟨?_,fun x => ((keeps x).sortItems items).2⟩
  cases items with
  | nil => exact .nil
  | cons x _ => exact ((keeps x).sortItems _).1.imp fun less => by simpa using less

end Order

end Merging

/-- What the class promises of a list: both directions visit every element once, and what is stored agrees. -/
structure WellFormed (heap : Heap Addr Id) (list : Id) (items : List Addr) : Prop where
  once : (heap.head list :: items).Nodup
  forward : List.IsChain (fun a b => heap.next a = some b) (heap.head list :: items ++ [heap.head list])
  backward : List.IsChain (fun a b => heap.prev a = some b) (heap.head list :: items.reverse ++ [heap.head list])
  tail : heap.tail list = items.getLast?.getD (heap.head list)
  totalSize : heap.totalSize list = items.length
  owner : ∀ z ∈ items, heap.owner z = some list

theorem Represents.wellFormed (rep : Represents heap contents) (list : Id) : WellFormed heap list (contents list) := by
  have ok := rep.rings list
  refine ⟨ok.nodup,ok.ring.imp fun _ _ linked => linked.1,?_,ok.tail,rep.totalSize list,?_⟩
  · have turned := isChain_reverse.mpr (ok.ring.imp fun _ _ linked => linked.2)
    simpa using turned
  · exact fun z inside => (rep.owner list z).mpr (mem_cons_of_mem _ inside)

structure Closed (step : Addr → Option Addr) (head : Addr) (items : List Addr) : Prop where
  chain : List.IsChain (fun a b => step a = some b) (head :: items ++ [head])
  once : (head :: items).Nodup

theorem Closed.step {step : Addr → Option Addr} {head y z : Addr} (closed : Closed step head items)
    (inside : y ∈ head :: items) (next : step y = some z) : z ∈ head :: items ∧ (y ≠ head → z ≠ y) := by
  obtain ⟨front,back,shape⟩ := append_of_mem inside
  have chain := closed.chain
  have once := closed.once
  rw [shape] at chain once
  rw [append_assoc,cons_append] at chain
  have rest := (isChain_split.mp chain).2
  have isNext : z = behind head back := by
    cases back with
    | nil => exact some.inj (next.symm.trans (isChain_cons_cons.mp rest).1)
    | cons b back => exact some.inj (next.symm.trans (isChain_cons_cons.mp rest).1)
  constructor
  · rw [isNext]
    have known := behind_known head [] back
    rcases mem_cons.mp known with same | later
    · rw [same]
      exact mem_cons_self
    · rw [shape]
      exact mem_append_right _ (mem_cons_of_mem _ later)
  · intro notHead same
    rw [same] at isNext
    have known := behind_known head [] back
    rw [← isNext] at known
    have later := (mem_cons.mp known).resolve_left notHead
    exact (nodup_cons.mp (nodup_append.mp once).2.1).1 later

theorem Closed.path {step : Addr → Option Addr} {head : Addr} (closed : Closed step head items) {walk : List Addr}
    {first : Addr} (chain : List.IsChain (fun a b => step a = some b) (first :: walk)) (inside : first ∈ head :: items) :
    ∀ z ∈ first :: walk, z ∈ head :: items := by
  induction walk generalizing first with
  | nil =>
    intro z only
    rw [mem_singleton.mp only]
    exact inside
  | cons second walk ih =>
    obtain ⟨next,rest⟩ := isChain_cons_cons.mp chain
    exact forall_mem_cons.mpr ⟨inside,ih rest (closed.step inside next).1⟩

structure Fresh (heap : Heap Addr Id) : Prop where
  next : ∀ list, heap.next (heap.head list) = some (heap.head list)
  prev : ∀ list, heap.prev (heap.head list) = some (heap.head list)
  tail : ∀ list, heap.tail list = heap.head list
  totalSize : ∀ list, heap.totalSize list = 0
  owner : ∀ list z, heap.owner z = some list ↔ z = heap.head list

theorem Fresh.represents (fresh : Fresh heap) : Represents heap fun _ => [] := by
  refine ⟨?_,fresh.totalSize,?_⟩
  · intro list
    refine ⟨⟨?_,nodup_singleton _⟩,fresh.tail list⟩
    exact isChain_pair.mpr ⟨fresh.next list,fresh.prev list⟩
  · intro list z
    rw [fresh.owner,mem_singleton]

variable [DecidableEq Addr]

/-- The way from the head to an element ends there, once the element is linked to itself. -/
theorem not_closed_of_loop {step : Addr → Option Addr} {head : Addr} {walk : List Addr}
    (path : List.IsChain (fun a b => step a = some b) (head :: (walk ++ [x]))) (away : x ∉ head :: walk) (items : List Addr) :
    ¬Closed (update step x (some x)) head items := by
  intro closed
  have still : List.IsChain (fun a b => update step x (some x) a = some b) (head :: (walk ++ [x])) := by
    apply isChain_transport path
    intro a isA b _ linked
    rw [← cons_append,dropLast_concat] at isA
    have apart : a ≠ x := fun same => away (same ▸ isA)
    rwa [update_of_ne apart]
  have inside := closed.path still mem_cons_self x (by simp)
  exact (closed.step inside (update_self ..)).2 (fun same => away (same ▸ mem_cons_self)) rfl

variable [DecidableEq Id]

section Swap

omit [DecidableEq Id] in
theorem setOwners_spec (owner : Id) (stop : Addr) (back : List Addr) (outside : stop ∉ back) :
    ∀ (heap : Heap Addr Id) (fuel : Nat), back.length < fuel →
      List.IsChain (fun a b => heap.next a = some b) (back ++ [stop]) →
      setOwners owner stop fuel heap (behind stop back) =
        some { heap with owner := fun z => if z ∈ back then some owner else heap.owner z } := by
  induction back with
  | nil =>
    intro heap fuel enough _
    cases fuel with
    | zero => cases enough
    | succ fuel =>
      change (if stop = stop then _ else _) = _
      rw [if_pos rfl]
      simp
  | cons b back ih =>
    intro heap fuel enough chain
    cases fuel with
    | zero => cases enough
    | succ fuel =>
      rw [mem_cons,not_or] at outside
      have next : heap.next b = some (behind stop back) := by
        cases back with
        | nil => exact (isChain_cons_cons.mp chain).1
        | cons c back => exact (isChain_cons_cons.mp chain).1
      have rest := ih outside.2 (heap.setOwner b (some owner)) fuel (Nat.lt_of_succ_lt_succ enough) chain.tail
      change (if b = stop then _ else (heap.next b).bind _) = _
      rw [if_neg (Ne.symm outside.1),next]
      change setOwners owner stop fuel (heap.setOwner b (some owner)) (behind stop back) = _
      rw [rest]
      congr 2
      ext1 z
      change (if z ∈ back then _ else update heap.owner b (some owner) z) = _
      by_cases same : z = b
      all_goals simp [same]

theorem swapFields_spec (heap : Heap Addr Id) (list other : Id) :
    (heap.swapFields list other).next = heap.next ∧ (heap.swapFields list other).prev = heap.prev ∧
    (∀ z, (heap.swapFields list other).head z = heap.head (swap list other z)) ∧
    (∀ z, (heap.swapFields list other).tail z = heap.tail (swap list other z)) ∧
    (∀ z, (heap.swapFields list other).totalSize z = heap.totalSize (swap list other z)) ∧
    ∀ z, (heap.swapFields list other).owner z =
      if z = heap.head list then some other else if z = heap.head other then some list else heap.owner z := by
  have values : ∀ {β : Type} (f : Id → β) (z : Id),
      update (update f list (f other)) other (f list) z = f (swap list other z) := by
    intro β f z
    rw [Equiv.swap_apply_def]
    by_cases isOther : z = other
    · subst isOther
      rw [update_self]
      by_cases isList : z = list
      · rw [if_pos isList,isList]
      · rw [if_neg isList,if_pos rfl]
    · rw [update_of_ne isOther,update_apply]
      split_ifs <;> rfl
  refine ⟨rfl,rfl,values heap.head,values heap.tail,values heap.totalSize,?_⟩
  intro z
  change update (update heap.owner (update heap.head list (heap.head other) list) (some list))
    (update (update heap.head list (heap.head other)) other (heap.head list) other) (some other) z = _
  rw [update_self,update_self,update_apply,update_apply]

theorem Represents.swap (rep : Represents heap contents) (list other : Id) :
    ∃ heap' bound, (∀ fuel, bound ≤ fuel → heap.swap fuel list other = some heap') ∧
      Represents heap' (contents ∘ Equiv.swap list other) := by
  let first : Heap Addr Id := { heap with owner := fun z => if z ∈ contents other then some list else heap.owner z }
  let second : Heap Addr Id := { first with owner := fun z => if z ∈ contents list then some other else first.owner z }
  have outside : ∀ ℓ, heap.head ℓ ∉ contents ℓ := fun ℓ => (nodup_cons.mp (rep.rings ℓ).nodup).1
  refine ⟨second.swapFields list other,max ((contents other).length + 1) ((contents list).length + 1),?_,?_⟩
  · intro fuel enough
    have loop₁ := setOwners_spec list (heap.head other) (contents other) (outside other) heap fuel
      ((le_max_left _ _).trans enough) (rep.rings other).walk
    have loop₂ := setOwners_spec other (heap.head list) (contents list) (outside list) first fuel
      ((le_max_right _ _).trans enough) (rep.rings list).walk
    rw [Heap.swap,(rep.rings other).first.1]
    change (setOwners list (heap.head other) fuel heap (behind (heap.head other) (contents other))).bind _ = _
    rw [loop₁]
    change (heap.next (heap.head list)).bind _ = _
    rw [(rep.rings list).first.1]
    change (setOwners other (heap.head list) fuel first (behind (heap.head list) (contents list))).bind _ = _
    rw [loop₂]
    rfl
  · obtain ⟨nexts,prevs,heads,tails,sizes,owners⟩ := swapFields_spec second list other
    have moved : ∀ z, (second.swapFields list other).owner z = (heap.owner z).map (Equiv.swap list other) := by
      intro z
      have inside : ∀ ℓ, z = heap.head ℓ ∨ z ∈ contents ℓ ↔ heap.owner z = some ℓ := by
        intro ℓ
        rw [rep.owner,mem_cons]
      rw [owners]
      change (if z = heap.head list then some other else if z = heap.head other then some list else
        if z ∈ contents list then some other else if z ∈ contents other then some list else heap.owner z) = _
      by_cases ofList : heap.owner z = some list
      · rw [ofList,map_some,Equiv.swap_apply_left]
        by_cases isHead : z = heap.head list
        · rw [if_pos isHead]
        · have isItem := ((inside list).mpr ofList).resolve_left isHead
          rw [if_neg isHead,if_pos isItem]
          split_ifs with otherHead
          · rw [← ofList]
            exact (inside other).mp (.inl otherHead)
          · rfl
      · have notList := not_or.mp (mt (inside list).mp ofList)
        rw [if_neg notList.1,if_neg notList.2]
        by_cases ofOther : heap.owner z = some other
        · rw [ofOther,map_some,Equiv.swap_apply_right]
          rcases (inside other).mpr ofOther with isHead | isItem
          · rw [if_pos isHead]
          · rw [if_pos isItem]
            split_ifs <;> rfl
        · have notOther := not_or.mp (mt (inside other).mp ofOther)
          rw [if_neg notOther.1,if_neg notOther.2]
          cases owned : heap.owner z with
          | none => rfl
          | some ℓ =>
            have apartList : ℓ ≠ list := fun same => ofList (same ▸ owned)
            have apartOther : ℓ ≠ other := fun same => ofOther (same ▸ owned)
            rw [map_some,Equiv.swap_apply_of_ne_of_ne apartList apartOther]
    refine ⟨?_,?_,?_⟩
    · intro ℓ
      have ok := rep.rings (Equiv.swap list other ℓ)
      refine ⟨?_,?_⟩
      · rw [nexts,prevs,heads]
        exact ok.toHeadedRing
      · rw [tails,heads]
        exact ok.tail
    · intro ℓ
      rw [sizes]
      exact rep.totalSize _
    · intro ℓ z
      rw [moved,heads]
      change _ ↔ z ∈ heap.head (Equiv.swap list other ℓ) :: contents (Equiv.swap list other ℓ)
      rw [← rep.owner,map_eq_some_iff]
      constructor
      · rintro ⟨ℓ',owned,rfl⟩
        rw [Equiv.swap_apply_self]
        exact owned
      · exact fun owned => ⟨_,owned,Equiv.swap_apply_self ..⟩

end Swap
section Sorting
variable (comp : Addr → Addr → Bool)

theorem sortLoop_spec (items : List Addr) : ∀ (heap : Heap Addr Id) (contents : Contents Addr Id)
    (counters : List (List Addr)), Represents heap contents → contents list = items → items ≠ [] →
      ∃ heap', (∀ fuel, items.length ≤ fuel →
          sortLoop comp list fuel heap counters = some (heap',fillCounters comp counters items)) ∧
        Represents heap' (update contents list []) ∧ heap'.head = heap.head := by
  induction items with
  | nil => exact fun _ _ _ _ _ nonempty => absurd rfl nonempty
  | cons item items ih =>
    intro heap contents counters rep shape _
    have first : heap.next (heap.head list) = some item := by
      rw [(rep.rings list).first.1,shape]
      rfl
    have inside : item ∈ contents list := by
      rw [shape]
      exact mem_cons_self
    obtain ⟨heap₁,result,rep₁,-,head⟩ := rep.eraseAt inside
    rw [shape,erase_cons_head] at rep₁
    have next := (rep₁.rings list).first.1
    rw [update_self] at next
    have unfolded : ∀ fuel, sortLoop comp list (fuel + 1) heap counters =
        if heap₁.next (heap₁.head list) = some (heap₁.head list) then some (heap₁,carryIn comp counters [item])
        else sortLoop comp list fuel heap₁ (carryIn comp counters [item]) := by
      intro fuel
      rw [sortLoop,first]
      change (heap.eraseAt list item).bind _ = _
      rw [result]
      rfl
    cases items with
    | nil =>
      refine ⟨heap₁,?_,rep₁,head⟩
      intro fuel enough
      cases fuel with
      | zero => cases enough
      | succ fuel =>
        rw [unfolded,next]
        exact if_pos rfl
    | cons second items =>
      have apart : heap₁.head list ∉ second :: items := by
        have nodup := (rep₁.rings list).nodup
        rw [update_self] at nodup
        exact (nodup_cons.mp nodup).1
      have more : some (behind (heap₁.head list) (second :: items)) ≠ some (heap₁.head list) := by
        intro same
        apply apart
        rw [← some.inj same]
        exact mem_cons_self
      obtain ⟨heap',rest,rep',head'⟩ := ih heap₁ _ (carryIn comp counters [item]) rep₁ (update_self ..)
        (cons_ne_nil _ _)
      rw [update_idem] at rep'
      refine ⟨heap',?_,rep',head'.trans head⟩
      intro fuel enough
      cases fuel with
      | zero => cases enough
      | succ fuel =>
        rw [unfolded,next,if_neg more]
        exact rest fuel (Nat.le_of_succ_le_succ enough)

theorem Represents.pushAll (list : Id) (mode : ListMode) (more : List Addr) : ∀ (heap : Heap Addr Id)
    (contents : Contents Addr Id), Represents heap contents → more.Nodup → (∀ z ∈ more, heap.owner z = none) →
      Represents (more.foldl (fun heap element => heap.pushBack list element mode) heap)
        (update contents list (contents list ++ more)) := by
  induction more with
  | nil =>
    intro heap contents rep _ _
    rwa [append_nil,update_eq_self]
  | cons x more ih =>
    intro heap contents rep nodup free
    obtain ⟨fresh,nodup⟩ := nodup_cons.mp nodup
    have pushed := rep.pushBack (free x mem_cons_self) list mode
    have still : ∀ z ∈ more, (heap.pushBack list x mode).owner z = none := by
      intro z later
      have apart : z ≠ x := fun same => fresh (same ▸ later)
      change update heap.owner x (some list) z = none
      rw [update_of_ne apart]
      exact free z (mem_cons_of_mem _ later)
    have rest := ih _ _ pushed nodup still
    rw [update_self,update_idem,append_assoc,singleton_append] at rest
    exact rest

theorem Represents.sort (rep : Represents heap contents) (list : Id) :
    ∃ heap' bound, (∀ fuel, bound ≤ fuel → heap.sort fuel list comp = some heap') ∧
      Represents heap' (update contents list (sortItems comp (contents list))) := by
  by_cases short : heap.totalSize list ≤ 1
  · refine ⟨heap,0,fun fuel _ => if_pos short,?_⟩
    rw [rep.totalSize] at short
    rw [sortItems,if_pos short,update_eq_self]
    exact rep
  · have long : ¬(contents list).length ≤ 1 := by rwa [← rep.totalSize]
    have nonempty : contents list ≠ [] := by
      intro empty
      rw [empty] at long
      exact long (Nat.zero_le 1)
    obtain ⟨heap₁,loop,rep₁,head⟩ := sortLoop_spec comp (contents list) heap contents [] rep rfl nonempty
    have perm : (sortItems comp (contents list)).Perm (contents list) := sortItems_perm comp _
    have sorted : sortItems comp (contents list) = mergeCounters comp (fillCounters comp [] (contents list)) :=
      if_neg long
    have empty := (rep₁.rings list).first.1
    rw [update_self] at empty
    refine ⟨(sortItems comp (contents list)).foldl (fun heap element => heap.pushBack list element .kWorkMode) heap₁,
      (contents list).length + 1,?_,?_⟩
    · intro fuel enough
      cases fuel with
      | zero => cases enough
      | succ fuel =>
        rw [Heap.sort,if_neg short,loop (fuel + 1) (Nat.le_of_succ_le enough)]
        change (Heap.clear list (fuel + 1) heap₁ (heap₁.next (heap₁.head list))).bind _ = _
        rw [empty]
        change (if heap₁.head list = heap₁.head list then some heap₁ else _).bind _ = _
        rw [if_pos rfl,sorted]
        rfl
    · have free : ∀ z ∈ sortItems comp (contents list), heap₁.owner z = none := by
        intro z isItem
        have inside : z ∈ contents list := perm.mem_iff.mp isItem
        have owned := (rep.owner list z).mpr (mem_cons_of_mem _ inside)
        cases new : heap₁.owner z with
        | none => rfl
        | some ℓ =>
          rw [rep₁.owner,head] at new
          by_cases same : ℓ = list
          · subst same
            rw [update_self,mem_singleton] at new
            exact absurd (new ▸ inside) (nodup_cons.mp (rep.rings ℓ).nodup).1
          · rw [update_of_ne same,← rep.owner,owned] at new
            exact absurd (some.inj new).symm same
      have pushed := Represents.pushAll list .kWorkMode _ heap₁ _ rep₁
        (perm.nodup_iff.mpr (nodup_cons.mp (rep.rings list).nodup).2) free
      rwa [update_self,nil_append,update_idem] at pushed

end Sorting
section Runs

theorem Heap.move_self (ok : ListRing heap list (front ++ x :: back)) (beforeFlag : Bool) :
    ∃ heap', heap.move list x x beforeFlag = some heap' ∧ heap'.head = heap.head ∧
      if beforeFlag then heap'.next = update heap.next x (some x)
      else heap'.prev = update heap.prev x (some x) := by
  obtain ⟨⟨fromBefore,prev⟩,next,toBehind⟩ := ok.neighbours
  have apartBefore : x ≠ before (heap.head list) front := fun same => ok.away (same ▸ before_known ..)
  have apartBehind : x ≠ behind (heap.head list) back := fun same => ok.away (same ▸ behind_known ..)
  obtain ⟨heap₁,result,-,-,head₁,next₁,prev₁⟩ := Heap.detach_spec ok
  rw [Heap.move,result]
  cases beforeFlag with
  | true =>
    have place : heap₁.prev x = some (before (heap.head list) front) := by
      rw [prev₁,update_of_ne apartBehind,prev]
    refine ⟨_,by change heap₁.attachBefore x x = _; rw [Heap.attachBefore,place]; rfl,?_⟩
    refine ⟨head₁,?_⟩
    change update (update heap₁.next _ (some x)) x (some x) = _
    rw [next₁,update_idem,← fromBefore,update_eq_self]
  | false =>
    have place : heap₁.next x = some (behind (heap.head list) back) := by
      rw [next₁,update_of_ne apartBefore,next]
    refine ⟨_,by change heap₁.attachAfter list x x = _; rw [Heap.attachAfter,place]; rfl,?_⟩
    rw [Heap.ite_setTail]
    refine ⟨head₁,?_⟩
    change update (update heap₁.prev _ (some x)) x (some x) = _
    rw [prev₁,update_idem,← toBehind,update_eq_self]

theorem Represents.move_self (rep : Represents heap contents) (inside : x ∈ contents list) (beforeFlag : Bool) :
    ∃ heap', heap.move list x x beforeFlag = some heap' ∧ ∀ items, ¬WellFormed heap' list items := by
  obtain ⟨front,back,shape⟩ := append_of_mem inside
  have ok := rep.rings list
  rw [shape] at ok
  obtain ⟨heap',result,head,loop⟩ := Heap.move_self ok beforeFlag
  refine ⟨heap',result,?_⟩
  intro items wellFormed
  have ring : List.IsChain (Linked heap.next heap.prev) (heap.head list :: front ++ x :: (back ++ [heap.head list])) := by
    have whole := ring_cons.mp ok.ring
    rwa [append_assoc] at whole
  obtain ⟨first,second⟩ := isChain_split.mp ring
  obtain ⟨notHead,away⟩ := not_or.mp (mt mem_cons.mpr ok.away)
  obtain ⟨notFront,notBack⟩ := not_or.mp (mt mem_append.mpr away)
  cases beforeFlag with
  | true =>
    rw [if_pos rfl] at loop
    apply not_closed_of_loop (first.imp fun _ _ linked => linked.1) (by simp [notHead,notFront]) items
    rw [← head,← loop]
    exact ⟨wellFormed.forward,wellFormed.once⟩
  | false =>
    rw [if_neg Bool.false_ne_true] at loop
    have turned : List.IsChain (fun a b => heap.prev a = some b) (heap.head list :: (back.reverse ++ [x])) := by
      have reversed := isChain_reverse.mpr (second.imp fun _ _ linked => linked.2)
      simpa using reversed
    apply not_closed_of_loop turned (by simp [notHead,notBack]) items.reverse
    rw [← head,← loop]
    have once := nodup_cons.mp wellFormed.once
    exact ⟨wellFormed.backward,nodup_cons.mpr ⟨fun inside => once.1 (mem_reverse.mp inside),nodup_reverse.mpr once.2⟩⟩

def ListCall.effect (contents : Contents Addr Id) : ListCall Addr Id → Contents Addr Id
  | pushBack list x _ => Function.update contents list (contents list ++ [x])
  | pushFront list x _ => Function.update contents list (x :: contents list)
  | insert list pos x _ => Function.update contents list (insertBeforeItem pos x (contents list))
  | move list src dst beforeFlag => Function.update contents list (moveItem src dst beforeFlag (contents list))
  | erase list x => Function.update contents list ((contents list).erase x)
  | swap list other => contents ∘ Equiv.swap list other
  | sort list comp => Function.update contents list (sortItems comp (contents list))

/-- What is asked of a call: an element that is put into a list is in none, a position is one of the list or its end, what is
moved and where are elements of it, and no head is erased. -/
def ListCall.Accepted (heap : Heap Addr Id) (contents : Contents Addr Id) : ListCall Addr Id → Prop
  | pushBack _ x _ => heap.owner x = none
  | pushFront _ x _ => heap.owner x = none
  | insert list pos x _ => heap.owner x = none ∧ heap.owner pos = some list
  | move list src dst _ => src ∈ contents list ∧ dst ∈ contents list
  | erase _ x => ∀ list, x ≠ heap.head list
  | swap _ _ => True
  | sort _ _ => True

def ListCall.movesToItself : ListCall Addr Id → Prop
  | move _ src dst _ => src = dst
  | _ => False

theorem Represents.exec (rep : Represents heap contents) {call : ListCall Addr Id} (accepted : call.Accepted heap contents)
    (apart : ¬call.movesToItself) : ∃ heap' bound, (∀ fuel, bound ≤ fuel → call.exec fuel heap = some heap') ∧
      Represents heap' (call.effect contents) := by
  cases call with
  | pushBack list x mode => exact ⟨_,0,fun _ _ => rfl,rep.pushBack accepted list mode⟩
  | pushFront list x mode =>
    obtain ⟨heap',result,rep'⟩ := rep.pushFront accepted list mode
    exact ⟨heap',0,fun _ _ => result,rep'⟩
  | insert list pos x mode =>
    obtain ⟨heap',result,rep'⟩ := rep.insert accepted.1 accepted.2 mode
    exact ⟨heap',0,fun _ _ => result,rep'⟩
  | move list src dst beforeFlag =>
    obtain ⟨heap',result,rep'⟩ := rep.move accepted.1 accepted.2 apart beforeFlag
    exact ⟨heap',0,fun _ _ => result,rep'⟩
  | erase list x =>
    obtain ⟨heap',status,result,rep'⟩ := rep.erase (accepted list)
    refine ⟨heap',0,fun _ _ => ?_,rep'⟩
    rw [ListCall.exec,result]
    rfl
  | swap list other => exact rep.swap list other
  | sort list comp => exact rep.sort comp list

/-- The heaps that calls lead to, with what the lists should hold. No call moves an element relative to itself. -/
inductive Run (initial : Heap Addr Id) : Heap Addr Id → Contents Addr Id → Prop
  | start : Run initial initial fun _ => []
  | step {heap heap' : Heap Addr Id} {contents : Contents Addr Id} (call : ListCall Addr Id)
      (earlier : Run initial heap contents) (accepted : call.Accepted heap contents) (apart : ¬call.movesToItself)
      (exec : ∃ bound, ∀ fuel, bound ≤ fuel → call.exec fuel heap = some heap') : Run initial heap' (call.effect contents)

theorem Run.represents {initial : Heap Addr Id} (fresh : Fresh initial) (run : Run initial heap contents) :
    Represents heap contents := by
  induction run with
  | start => exact fresh.represents
  | step call _ accepted apart exec ih =>
    obtain ⟨heap',bound,result,rep⟩ := ih.exec accepted apart
    obtain ⟨bound',result'⟩ := exec
    have same := (result _ (le_max_left bound bound')).symm.trans (result' _ (le_max_right bound bound'))
    rwa [some.inj same] at rep

/-- The lists are well formed and hold what they should; one more call keeps them so just if it does not move an
element relative to itself. -/
theorem quickList_run {initial : Heap Addr Id} (fresh : Fresh initial) (run : Run initial heap contents) :
    (∀ list, WellFormed heap list (contents list)) ∧ ∀ call : ListCall Addr Id, call.Accepted heap contents →
      ∃ heap' bound, (∀ fuel, bound ≤ fuel → call.exec fuel heap = some heap') ∧
        ((∀ list, WellFormed heap' list (call.effect contents list)) ↔ ¬call.movesToItself) := by
  have rep := run.represents fresh
  refine ⟨rep.wellFormed,?_⟩
  intro call accepted
  by_cases apart : call.movesToItself
  · cases call with
    | move list src dst beforeFlag =>
      cases apart
      obtain ⟨heap',result,broken⟩ := rep.move_self accepted.1 beforeFlag
      refine ⟨heap',0,fun _ _ => result,?_⟩
      constructor
      · exact fun all => absurd (all list) (broken _)
      · exact fun different => absurd rfl different
    | _ => cases apart
  · obtain ⟨heap',bound,result,rep'⟩ := rep.exec accepted apart
    exact ⟨heap',bound,result,iff_of_true rep'.wellFormed apart⟩

def twoLists : Heap Nat Bool where
  next z := if z < 2 then some z else none
  prev z := if z < 2 then some z else none
  owner z := if z = 0 then some false else if z = 1 then some true else none
  mode _ := .kFreeMode
  head list := if list then 1 else 0
  tail list := if list then 1 else 0
  totalSize _ := 0

theorem twoLists_fresh : Fresh twoLists := by
  refine ⟨?_,?_,?_,fun _ => rfl,?_⟩
  · intro list
    cases list <;> rfl
  · intro list
    cases list <;> rfl
  · exact fun _ => rfl
  · intro list z
    change (if z = 0 then some false else if z = 1 then some true else none) = some list ↔ z = if list then 1 else 0
    cases list with
    | false => simp
    | true =>
      by_cases zero : z = 0
      all_goals simp [zero]

def twoItems : Heap Nat Bool := (twoLists.pushBack false 2 .kWorkMode).pushBack false 3 .kWorkMode

def twoItemsContents : Contents Nat Bool :=
  (ListCall.pushBack false 3 .kWorkMode).effect ((ListCall.pushBack false 2 .kWorkMode).effect fun _ => [])

theorem twoItems_run : Run twoLists twoItems twoItemsContents := by
  have first : Run twoLists (twoLists.pushBack false 2 .kWorkMode)
      ((ListCall.pushBack false 2 .kWorkMode).effect fun _ => []) :=
    .step (.pushBack false 2 .kWorkMode) .start rfl id ⟨0,fun _ _ => rfl⟩
  exact .step (.pushBack false 3 .kWorkMode) first rfl id ⟨0,fun _ _ => rfl⟩

theorem twoItems_wellFormed : WellFormed twoItems false [2,3] := (quickList_run twoLists_fresh twoItems_run).1 false

/-- Element 2 is moved in front of itself, and the walk does not get past it. -/
theorem twoItems_broken : Run twoLists twoItems twoItemsContents ∧
    (ListCall.move false 2 2 true).Accepted twoItems twoItemsContents ∧
    ∃ heap', twoItems.move false 2 2 true = some heap' ∧ heap'.next 0 = some 2 ∧ heap'.next 2 = some 2 ∧
      ∀ items, ¬WellFormed heap' false items := by
  have inside : 2 ∈ twoItemsContents false := mem_cons_self
  obtain ⟨heap',result,broken⟩ := (twoItems_run.represents twoLists_fresh).move_self inside true
  have first : (twoItems.move false 2 2 true).map (·.next 0) = some (some 2) := rfl
  have second : (twoItems.move false 2 2 true).map (·.next 2) = some (some 2) := rfl
  rw [result] at first second
  exact ⟨twoItems_run,⟨inside,inside⟩,heap',result,some.inj first,some.inj second,broken⟩

/-- Sorting by a strict weak order ends, with the list in order, its ring whole and equivalent elements as they followed each
other before. -/
theorem sort_stable (rep : Represents heap contents) (list : Id) {comp : Addr → Addr → Bool}
    (order : IsStrictWeakOrder Addr fun a b => comp a b = true) : ∃ heap' sorted bound,
      (∀ fuel, bound ≤ fuel → heap.sort fuel list comp = some heap') ∧ Represents heap' (update contents list sorted) ∧
      sorted.Perm (contents list) ∧ sorted.Pairwise (fun a b => comp b a = false) ∧
      ∀ x, sorted.filter (equivalent comp x) = (contents list).filter (equivalent comp x) := by
  obtain ⟨heap',bound,result,rep'⟩ := rep.sort comp list
  exact ⟨heap',_,bound,result,rep',sortItems_perm comp _,sortItems_sorted order _⟩

theorem twoItems_sorted : ∃ heap' sorted bound,
    (∀ fuel, bound ≤ fuel → twoItems.sort fuel false (fun a b => b < a) = some heap') ∧
    Represents heap' (update twoItemsContents false sorted) ∧ sorted.Perm [2,3] ∧
    sorted.Pairwise (fun a b => decide (a < b) = false) ∧
    ∀ x, sorted.filter (equivalent (fun a b => b < a) x) = [2,3].filter (equivalent (fun a b => b < a) x) := by
  apply sort_stable (twoItems_run.represents twoLists_fresh) false
  simp only [decide_eq_true_eq]
  exact {irrefl := Nat.lt_irrefl,trans := fun _ _ _ ba cb => Nat.lt_trans cb ba,incomp_trans := by omega}

end Runs
end GraphEngine.FastGraph
