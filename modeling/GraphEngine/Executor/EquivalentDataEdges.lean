import Mathlib.Algebra.Order.Ring.Nat
import Mathlib.Data.List.Induction
import Mathlib.Data.Nat.SuccPred

/-! Equivalent data edges: the end points of an execute graph are grouped under symbols by two maps kept in step, and the
smaller of two groups moves to the larger one. -/
namespace GraphEngine.Executor

open List
open Or (inr inl)

structure EquivalentDataEdges (α : Type) where
  symbolsToEndpoints : α → Option (List α)
  endpointsToSymbol : α → Option α

namespace EquivalentDataEdges
variable {α : Type} [DecidableEq α]

open Function

def empty : EquivalentDataEdges α := ⟨fun _ => none,fun _ => none⟩

section Operations
variable (edges : EquivalentDataEdges α)

def members (symbol : α) : List α := (edges.symbolsToEndpoints symbol).getD []

def add (endpoint : α) : EquivalentDataEdges α :=
  ⟨update edges.symbolsToEndpoints endpoint (some [endpoint]),update edges.endpointsToSymbol endpoint (some endpoint)⟩

def emplace (symbol endpoint : α) : EquivalentDataEdges α :=
  ⟨update edges.symbolsToEndpoints symbol (some ((edges.members symbol).insert endpoint)),
    update edges.endpointsToSymbol endpoint (some symbol)⟩

/-- The last branch of `Merge`: the end points of one symbol move to another. -/
def moveEndpoints (fromSymbol toSymbol : α) : EquivalentDataEdges α :=
  let moved := (edges.members fromSymbol).foldl (emplace · toSymbol) edges
  { moved with symbolsToEndpoints := update moved.symbolsToEndpoints fromSymbol none }

def merge (endpoint1 endpoint2 : α) : EquivalentDataEdges α :=
  match edges.endpointsToSymbol endpoint1,edges.endpointsToSymbol endpoint2 with
  | none,none => (edges.add endpoint1).emplace endpoint1 endpoint2
  | none,some symbol2 => edges.emplace symbol2 endpoint1
  | some symbol1,none => edges.emplace symbol1 endpoint2
  | some symbol1,some symbol2 =>
    if symbol1 = symbol2 then edges
    else if (edges.members symbol1).length > (edges.members symbol2).length then edges.moveEndpoints symbol2 symbol1
    else edges.moveEndpoints symbol1 symbol2

inductive Call (α : Type) where
  | add (endpoint : α)
  | merge (endpoint1 endpoint2 : α)
  deriving DecidableEq, Repr

def Call.ends : Call α → List α
  | .add endpoint => [endpoint]
  | .merge endpoint1 endpoint2 => [endpoint1,endpoint2]

def exec : Call α → EquivalentDataEdges α
  | .add endpoint => edges.add endpoint
  | .merge endpoint1 endpoint2 => edges.merge endpoint1 endpoint2

def run (calls : List (Call α)) : EquivalentDataEdges α := calls.foldl exec empty

/-- The maps are inverse to each other, no symbol is left without members, and a symbol is one of its members. -/
structure Inverse : Prop where
  inverse : ∀ endpoint symbol, endpoint ∈ edges.members symbol ↔ edges.endpointsToSymbol endpoint = some symbol
  filled : ∀ symbol, edges.symbolsToEndpoints symbol ≠ some []
  own : ∀ endpoint symbol, edges.endpointsToSymbol endpoint = some symbol → edges.endpointsToSymbol symbol = some symbol

structure LeastEquivalence (calls : List (Call α)) (edges : EquivalentDataEdges α) : Prop where
  maps : Inverse edges
  known : ∀ endpoint, (edges.endpointsToSymbol endpoint).isSome ↔ ∃ call ∈ calls, endpoint ∈ call.ends
  least : ∀ first second, (edges.endpointsToSymbol first).isSome → (edges.endpointsToSymbol second).isSome →
    (edges.endpointsToSymbol first = edges.endpointsToSymbol second ↔
      Relation.EqvGen (fun x y => Call.merge x y ∈ calls) first second)

end Operations

theorem members_update (edges : EquivalentDataEdges α) (symbol other : α) (set : Option (List α)) (symbols : α → Option α) :
    members ⟨update edges.symbolsToEndpoints symbol set,symbols⟩ other =
      if other = symbol then set.getD [] else edges.members other := by
  rw [members,members]
  split_ifs with same
  · simp [same]
  · simp [same]

omit [DecidableEq α] in
theorem inverse_empty : Inverse (empty : EquivalentDataEdges α) :=
  ⟨fun _ _ => by simp [members,empty],fun _ => nofun,fun _ _ none => by simp [empty] at none⟩

variable {edges : EquivalentDataEdges α} {endpoint symbol endpoint1 endpoint2 : α} {calls : List (Call α)}
  (fresh : edges.endpointsToSymbol endpoint = none)
include fresh

omit [DecidableEq α] in
theorem Inverse.not_symbol (maps : Inverse edges) (other : α) : edges.endpointsToSymbol other ≠ some endpoint := by
  intro shared
  rw [maps.own _ _ shared] at fresh
  exact absurd fresh (by simp)

theorem Inverse.emplaced (maps : Inverse edges) (root : symbol = endpoint ∨ edges.endpointsToSymbol symbol = some symbol) :
    Inverse (edges.emplace symbol endpoint) := by
  refine ⟨?_,?_,?_⟩
  · intro other key
    rw [emplace,members_update]
    rcases eq_or_ne other endpoint with rfl | different
    · split_ifs with same
      · simp [same]
      · simp [maps.inverse,fresh,Ne.symm same]
    · split_ifs with same
      · simp [same,maps.inverse,different]
      · simp [maps.inverse,different]
  · intro key
    rcases eq_or_ne key symbol with rfl | different
    · have there : endpoint ∈ (edges.members key).insert endpoint := mem_insert_self
      simpa [emplace] using ne_nil_of_mem there
    · simpa [emplace,different] using maps.filled key
  · intro other key shared
    rcases eq_or_ne other endpoint with rfl | different
    · simp only [emplace,update_self,Option.some.injEq] at shared
      subst shared
      rcases eq_or_ne symbol other with rfl | apart
      · simp [emplace]
      · simpa [emplace,apart] using root
    · simp only [emplace,update_of_ne different] at shared
      have own := maps.own _ _ shared
      have apart : key ≠ endpoint := by
        intro same
        rw [same,fresh] at own
        exact absurd own (by simp)
      simpa [emplace,apart] using own

theorem Inverse.add_eq (maps : Inverse edges) : edges.add endpoint = edges.emplace endpoint endpoint := by
  have none : edges.members endpoint = [] := by
    rw [eq_nil_iff_forall_not_mem]
    intro other inside
    exact maps.not_symbol fresh other ((maps.inverse _ _).mp inside)
  rw [add,emplace,none]
  rfl

omit fresh

theorem foldl_emplace (toSymbol : α) (moved : List α) (edges : EquivalentDataEdges α) :
    (∀ endpoint, (moved.foldl (emplace · toSymbol) edges).endpointsToSymbol endpoint =
      if endpoint ∈ moved then some toSymbol else edges.endpointsToSymbol endpoint) ∧
    (∀ endpoint, endpoint ∈ (moved.foldl (emplace · toSymbol) edges).members toSymbol ↔
      endpoint ∈ moved ∨ endpoint ∈ edges.members toSymbol) ∧
    ∀ symbol ≠ toSymbol, (moved.foldl (emplace · toSymbol) edges).symbolsToEndpoints symbol =
      edges.symbolsToEndpoints symbol := by
  induction moved generalizing edges with
  | nil => simp
  | cons first rest ih =>
    obtain ⟨symbols,group,others⟩ := ih (edges.emplace toSymbol first)
    rw [foldl_cons]
    refine ⟨?_,?_,?_⟩
    · intro endpoint
      rw [symbols]
      rcases eq_or_ne endpoint first with rfl | different
      · simp [emplace]
      · simp [emplace,different]
    · intro endpoint
      rw [group,emplace,members_update,if_pos rfl,Option.getD_some,mem_insert_iff,mem_cons]
      tauto
    · intro symbol different
      rw [others symbol different]
      simp [emplace,different]

theorem moveEndpoints_symbol (maps : Inverse edges) (fromSymbol toSymbol endpoint : α) :
    (edges.moveEndpoints fromSymbol toSymbol).endpointsToSymbol endpoint =
      if edges.endpointsToSymbol endpoint = some fromSymbol then some toSymbol else edges.endpointsToSymbol endpoint := by
  rw [moveEndpoints,(foldl_emplace toSymbol _ edges).1]
  simp only [maps.inverse]

theorem Inverse.moved (maps : Inverse edges) {fromSymbol toSymbol : α}
    (root : edges.endpointsToSymbol toSymbol = some toSymbol) (different : fromSymbol ≠ toSymbol) :
    Inverse (edges.moveEndpoints fromSymbol toSymbol) := by
  obtain ⟨-,group,others⟩ := foldl_emplace toSymbol (edges.members fromSymbol) edges
  have symbols := moveEndpoints_symbol maps fromSymbol toSymbol
  have key (symbol : α) (apart : symbol ≠ fromSymbol) : (edges.moveEndpoints fromSymbol toSymbol).symbolsToEndpoints symbol =
      ((edges.members fromSymbol).foldl (emplace · toSymbol) edges).symbolsToEndpoints symbol := by
    rw [moveEndpoints]
    exact update_of_ne apart _ _
  have content (endpoint symbol : α) : endpoint ∈ (edges.moveEndpoints fromSymbol toSymbol).members symbol ↔
      (edges.moveEndpoints fromSymbol toSymbol).endpointsToSymbol endpoint = some symbol := by
    rw [symbols]
    rcases eq_or_ne symbol fromSymbol with rfl | apart
    · have gone : (edges.moveEndpoints symbol toSymbol).members symbol = [] := by
        simp [members,moveEndpoints]
      rw [gone]
      split_ifs with other
      · simpa using Ne.symm different
      · simp [other]
    · rw [members,key symbol apart]
      rcases eq_or_ne symbol toSymbol with rfl | away
      · rw [← members,group,maps.inverse,maps.inverse]
        split_ifs with moved
        all_goals simp [moved]
      · rw [others symbol away,← members,maps.inverse]
        split_ifs with moved
        · simp [moved,Ne.symm apart,Ne.symm away]
        · rfl
  refine ⟨content,?_,?_⟩
  · intro symbol
    rcases eq_or_ne symbol fromSymbol with rfl | apart
    · simp [moveEndpoints]
    · rcases eq_or_ne symbol toSymbol with rfl | away
      · intro empty
        have there := (content symbol symbol).mpr (by simp [symbols,root,Ne.symm different])
        simp [members,empty] at there
      · rw [key symbol apart,others symbol away]
        exact maps.filled symbol
  · intro endpoint symbol shared
    rw [symbols] at shared
    split_ifs at shared with kept
    · injection shared with same
      subst same
      simp [symbols,root,Ne.symm different]
    · have own := maps.own _ _ shared
      have apart : symbol ≠ fromSymbol := by
        intro same
        exact kept (same ▸ shared)
      rw [symbols,own,if_neg (by simpa using apart)]

theorem Inverse.emplace_self (maps : Inverse edges)
    (there : edges.endpointsToSymbol endpoint = some symbol) : edges.emplace symbol endpoint = edges := by
  have member := (maps.inverse endpoint symbol).mpr there
  have key : edges.symbolsToEndpoints symbol = some (edges.members symbol) := by
    rw [members] at member ⊢
    cases set : edges.symbolsToEndpoints symbol with
    | none => simp [set] at member
    | some _ => rfl
  rw [emplace,insert_of_mem member,← key,← there,update_eq_self,update_eq_self]

def Joined (edges : EquivalentDataEdges α) (endpoint1 endpoint2 endpoint : α) : Prop :=
  endpoint = endpoint1 ∨ endpoint = endpoint2 ∨ (edges.endpointsToSymbol endpoint).isSome ∧
    (edges.endpointsToSymbol endpoint = edges.endpointsToSymbol endpoint1 ∨
      edges.endpointsToSymbol endpoint = edges.endpointsToSymbol endpoint2)

/-- All a merge does to the symbols: the joined end points get one symbol, which is new or was one of theirs. -/
structure Merges (edges after : EquivalentDataEdges α) (endpoint1 endpoint2 symbol : α) : Prop where
  maps : Inverse after
  joined : ∀ endpoint, edges.Joined endpoint1 endpoint2 endpoint → after.endpointsToSymbol endpoint = some symbol
  apart : ∀ endpoint, ¬edges.Joined endpoint1 endpoint2 endpoint →
    after.endpointsToSymbol endpoint = edges.endpointsToSymbol endpoint
  source : edges.endpointsToSymbol symbol = none ∨ edges.endpointsToSymbol endpoint1 = some symbol ∨
    edges.endpointsToSymbol endpoint2 = some symbol

omit [DecidableEq α] in
theorem Joined.symm (joined : edges.Joined endpoint1 endpoint2 endpoint) : edges.Joined endpoint2 endpoint1 endpoint := by
  rw [Joined] at joined ⊢
  tauto

omit [DecidableEq α] in
theorem Merges.symm {after : EquivalentDataEdges α}
    (merges : Merges edges after endpoint1 endpoint2 symbol) : Merges edges after endpoint2 endpoint1 symbol :=
  ⟨merges.maps,fun _ joined => merges.joined _ joined.symm,fun _ apart => merges.apart _ fun joined => apart joined.symm,
    merges.source.imp_right Or.symm⟩

section

variable (maps : Inverse edges)
include maps

theorem merges_emplace (fresh : edges.endpointsToSymbol endpoint1 = none)
    (known : edges.endpointsToSymbol endpoint2 = some symbol ∨ endpoint2 = endpoint1 ∧ symbol = endpoint1) :
    Merges edges (edges.emplace symbol endpoint1) endpoint1 endpoint2 symbol := by
  refine ⟨maps.emplaced fresh (known.symm.imp (·.2) (maps.own _ _)),?_,?_,?_⟩
  · intro endpoint joined
    rw [Joined,fresh] at joined
    rcases eq_or_ne endpoint endpoint1 with rfl | different
    · simp [emplace]
    · have here : edges.endpointsToSymbol endpoint = some symbol := by
        rcases known with known | ⟨rfl,rfl⟩
        · rcases joined with same | rfl | ⟨filled,none | shared⟩
          · exact absurd same different
          · exact known
          · simp [none] at filled
          · exact shared.trans known
        · rcases joined with same | same | ⟨filled,none | none⟩
          · exact absurd same different
          · exact absurd same different
          · simp [none] at filled
          · simp [none,fresh] at filled
      simpa [emplace,different] using here
  · intro endpoint apart
    have different : endpoint ≠ endpoint1 := fun same => apart (inl same)
    simp [emplace,different]
  · rcases known with known | ⟨-,rfl⟩
    · exact inr (inr known)
    · exact inl fresh

theorem merges_moveEndpoints {symbol1 symbol2 : α}
    (first : edges.endpointsToSymbol endpoint1 = some symbol1) (second : edges.endpointsToSymbol endpoint2 = some symbol2)
    (different : symbol1 ≠ symbol2) : Merges edges (edges.moveEndpoints symbol1 symbol2) endpoint1 endpoint2 symbol2 := by
  refine ⟨maps.moved (maps.own _ _ second) different,?_,?_,inr (inr second)⟩
  · intro endpoint joined
    rw [moveEndpoints_symbol maps]
    split_ifs with kept
    · rfl
    · rcases joined with rfl | rfl | ⟨-,shared | shared⟩
      · exact absurd first kept
      · exact second
      · exact absurd (shared.trans first) kept
      · exact shared.trans second
  · intro endpoint apart
    rw [moveEndpoints_symbol maps,if_neg]
    intro shared
    exact apart (inr (inr ⟨by simp [shared],inl (shared.trans first.symm)⟩))

theorem merge_spec (endpoint1 endpoint2 : α) :
    ∃ symbol, Merges edges (edges.merge endpoint1 endpoint2) endpoint1 endpoint2 symbol := by
  rw [merge]
  cases first : edges.endpointsToSymbol endpoint1 with
  | none =>
    cases second : edges.endpointsToSymbol endpoint2 with
    | none =>
      have added : Inverse (edges.add endpoint1) := maps.add_eq first ▸ maps.emplaced first (inl rfl)
      have root : (edges.add endpoint1).endpointsToSymbol endpoint1 = some endpoint1 := by simp [add]
      refine ⟨endpoint1,?_,?_,?_,inl first⟩
      · rcases eq_or_ne endpoint2 endpoint1 with rfl | different
        · rwa [added.emplace_self root]
        · exact added.emplaced (by simp [add,different,second]) (inr root)
      · intro endpoint joined
        rcases eq_or_ne endpoint endpoint2 with rfl | different
        · simp [emplace]
        · rcases joined with rfl | same | ⟨filled,shared | shared⟩
          · simp [emplace,add,different]
          · exact absurd same different
          · simp [shared,first] at filled
          · simp [shared,second] at filled
      · intro endpoint apart
        have away : endpoint ≠ endpoint1 ∧ endpoint ≠ endpoint2 :=
          ⟨fun same => apart (inl same),fun same => apart (inr (inl same))⟩
        simp [emplace,add,away]
    | some symbol2 => exact ⟨symbol2,merges_emplace maps first (inl second)⟩
  | some symbol1 =>
    cases second : edges.endpointsToSymbol endpoint2 with
    | none => exact ⟨symbol1,(merges_emplace maps second (inl first)).symm⟩
    | some symbol2 =>
      dsimp only
      split_ifs with same
      · subst same
        refine ⟨symbol1,maps,?_,fun _ _ => rfl,inr (inl first)⟩
        intro endpoint joined
        rcases joined with rfl | rfl | ⟨-,shared | shared⟩
        · exact first
        · exact second
        · exact shared.trans first
        · exact shared.trans second
      · exact ⟨symbol1,(merges_moveEndpoints maps second first (Ne.symm same)).symm⟩
      · exact ⟨symbol2,merges_moveEndpoints maps first second same⟩

end

structure Tracks (calls : List (Call α)) (edges : EquivalentDataEdges α) : Prop where
  maps : Inverse edges
  known : ∀ endpoint, (edges.endpointsToSymbol endpoint).isSome ↔ ∃ call ∈ calls, endpoint ∈ call.ends
  sound : ∀ first second symbol, edges.endpointsToSymbol first = some symbol → edges.endpointsToSymbol second = some symbol →
    Relation.EqvGen (fun x y => Call.merge x y ∈ calls) first second
  complete : ∀ first second, Call.merge first second ∈ calls → edges.endpointsToSymbol first = edges.endpointsToSymbol second

abbrev Linked (calls : List (Call α)) : α → α → Prop := Relation.EqvGen fun x y => Call.merge x y ∈ calls

omit [DecidableEq α] in
/-- What a call adds to the relation is the pair of its ends. -/
theorem Tracks.joins (tracks : Tracks calls edges) {after : EquivalentDataEdges α} {call : Call α}
    (ends : ∀ endpoint, endpoint ∈ call.ends ↔ endpoint = endpoint1 ∨ endpoint = endpoint2)
    (pair : Linked (calls ++ [call]) endpoint2 endpoint1)
    (merges : Merges edges after endpoint1 endpoint2 symbol) : Tracks (calls ++ [call]) after := by
  have mono {x y : α} (joined : Linked calls x y) : Linked (calls ++ [call]) x y :=
    joined.mono fun _ _ there => mem_append_left _ there
  have toFirst {endpoint : α} (joined : edges.Joined endpoint1 endpoint2 endpoint) :
      Linked (calls ++ [call]) endpoint endpoint1 := by
    rcases joined with rfl | rfl | ⟨filled,shared | shared⟩
    · exact .refl _
    · exact pair
    · obtain ⟨own,here⟩ := Option.isSome_iff_exists.mp filled
      exact mono (tracks.sound _ _ own here (shared ▸ here))
    · obtain ⟨own,here⟩ := Option.isSome_iff_exists.mp filled
      exact .trans _ _ _ (mono (tracks.sound _ _ own here (shared ▸ here))) pair
  -- an end point that was not joined keeps its symbol, which is not the symbol of the joined ones
  have kept {endpoint : α} (apart : ¬edges.Joined endpoint1 endpoint2 endpoint) :
      edges.endpointsToSymbol endpoint ≠ some symbol := by
    intro shared
    rcases merges.source with fresh | first | second
    · exact tracks.maps.not_symbol fresh endpoint shared
    · exact apart (inr (inr ⟨by simp [shared],inl (shared.trans first.symm)⟩))
    · exact apart (inr (inr ⟨by simp [shared],inr (shared.trans second.symm)⟩))
  refine ⟨merges.maps,?_,?_,?_⟩
  · intro endpoint
    by_cases joined : edges.Joined endpoint1 endpoint2 endpoint
    · rw [merges.joined _ joined]
      refine ⟨fun _ => ?_,fun _ => rfl⟩
      rcases joined with same | same | ⟨filled,-⟩
      · exact ⟨_,mem_append_right _ mem_cons_self,(ends _).mpr (inl same)⟩
      · exact ⟨_,mem_append_right _ mem_cons_self,(ends _).mpr (inr same)⟩
      · obtain ⟨call,there,inside⟩ := (tracks.known endpoint).mp filled
        exact ⟨call,mem_append_left _ there,inside⟩
    · rw [merges.apart _ joined,tracks.known]
      have away : endpoint ≠ endpoint1 ∧ endpoint ≠ endpoint2 :=
        ⟨fun same => joined (inl same),fun same => joined (inr (inl same))⟩
      simp [ends,or_and_right,exists_or,away]
  · intro first second shared one two
    by_cases joined : edges.Joined endpoint1 endpoint2 first
    · rw [merges.joined _ joined] at one
      injection one with same
      subst same
      by_cases joined' : edges.Joined endpoint1 endpoint2 second
      · exact .trans _ _ _ (toFirst joined) (.symm _ _ (toFirst joined'))
      · rw [merges.apart _ joined'] at two
        exact absurd two (kept joined')
    · rw [merges.apart _ joined] at one
      by_cases joined' : edges.Joined endpoint1 endpoint2 second
      · rw [merges.joined _ joined'] at two
        injection two with same
        subst same
        exact absurd one (kept joined)
      · rw [merges.apart _ joined'] at two
        exact mono (tracks.sound _ _ _ one two)
  · intro first second there
    rcases mem_append.mp there with before | now
    · have same := tracks.complete _ _ before
      have filled {other : α} (inside : other ∈ (Call.merge first second).ends) : (edges.endpointsToSymbol other).isSome :=
        (tracks.known other).mpr ⟨_,before,inside⟩
      have carry {one two : α} (same : edges.endpointsToSymbol one = edges.endpointsToSymbol two)
          (filled : (edges.endpointsToSymbol two).isSome) (joined : edges.Joined endpoint1 endpoint2 one) :
          edges.Joined endpoint1 endpoint2 two := by
        refine inr (inr ⟨filled,?_⟩)
        rcases joined with rfl | rfl | ⟨-,shared⟩
        · exact inl same.symm
        · exact inr same.symm
        · rwa [← same]
      by_cases joined : edges.Joined endpoint1 endpoint2 first
      · rw [merges.joined _ joined,merges.joined _ (carry same (filled (by simp [Call.ends])) joined)]
      · have joined' : ¬edges.Joined endpoint1 endpoint2 second := fun other =>
          joined (carry same.symm (filled (by simp [Call.ends])) other)
        rw [merges.apart _ joined,merges.apart _ joined',same]
    · have joined {other : α} (inside : other ∈ (Call.merge first second).ends) : edges.Joined endpoint1 endpoint2 other :=
        ((ends other).mp (mem_singleton.mp now ▸ inside)).imp_right inl
      rw [merges.joined _ (joined (by simp [Call.ends])),merges.joined _ (joined (by simp [Call.ends]))]

def FreshAdds (calls : List (Call α)) : Prop :=
  calls.Pairwise fun earlier later => ∀ endpoint, later = .add endpoint → endpoint ∉ earlier.ends

theorem tracks_run (fresh : FreshAdds calls) : Tracks calls (run calls) := by
  induction calls using List.reverseRecOn with
  | nil => exact ⟨inverse_empty,fun _ => by simp [run,empty],fun _ _ _ none => by simp [run,empty] at none,fun _ _ => nofun⟩
  | append_singleton done call ih =>
    rw [FreshAdds,pairwise_append] at fresh
    have step := ih fresh.1
    rw [run,foldl_append]
    cases call with
    | add endpoint =>
      have unknown : (run done).endpointsToSymbol endpoint = none := by
        rw [← Option.not_isSome_iff_eq_none,step.known]
        intro ⟨earlier,there,inside⟩
        exact fresh.2.2 earlier there _ mem_cons_self endpoint rfl inside
      exact step.joins (by simp [Call.ends]) (.refl _)
        (step.maps.add_eq unknown ▸ merges_emplace step.maps unknown (inr ⟨rfl,rfl⟩))
    | merge endpoint1 endpoint2 =>
      obtain ⟨symbol,merges⟩ := merge_spec step.maps endpoint1 endpoint2
      exact step.joins (by simp [Call.ends]) (.symm _ _ (.rel _ _ (by simp))) merges

omit [DecidableEq α] in
theorem Tracks.leastEquivalence (tracks : Tracks calls edges) : LeastEquivalence calls edges := by
  refine ⟨tracks.maps,tracks.known,?_⟩
  intro first second filled filled'
  refine ⟨?_,?_⟩
  · intro same
    obtain ⟨symbol,here⟩ := Option.isSome_iff_exists.mp filled
    exact tracks.sound _ _ symbol here (same ▸ here)
  · intro joined
    clear filled filled'
    induction joined with
    | rel x y there => exact tracks.complete x y there
    | refl => rfl
    | symm x y _ ih => exact ih.symm
    | trans x y z _ _ one two => exact one.trans two

end EquivalentDataEdges

section Graph

open EquivalentDataEdges (Call FreshAdds)

structure EndPoint where
  id : Fin (2 ^ 32)
  index : Fin (2 ^ 31)
  direction : Fin 2
  deriving DecidableEq, Repr

def EndPoint.make (id : Nat) (index : Int) (direction : Fin 2) : EndPoint :=
  ⟨⟨id % 2 ^ 32,Nat.mod_lt _ (by decide)⟩,⟨(index % 2 ^ 31).toNat,by omega⟩,direction⟩

def encode (point : EndPoint) : Nat := point.id.val ||| point.index.val <<< 32 ||| point.direction.val <<< 63

def decode (endpoint : Nat) : Nat × Nat × Nat := (endpoint &&& 0xffffffff,endpoint >>> 32 &&& 0x7fffffff,endpoint >>> 63)

def inputEnd (id : Nat) (index : Int) : Nat := encode (.make id index 0)

def outputEnd (id : Nat) (index : Int) : Nat := encode (.make id index 1)

/-- The types that the pass tells apart; the index attribute of inner data may be missing. -/
inductive NodeType where
  | innerData (index : Option Int)
  | innerNetOutput
  | other
  deriving DecidableEq, Repr

/-- An edge is the id of the consumer and the input there; a reference is the name of its source and the index attribute. -/
structure ExeNode where
  id : Nat
  name : String
  type : NodeType
  parent : Option Nat
  outEdges : List (List (Option (Nat × Int)))
  inEdges : List (Option Int)
  refs : List (Option (String × Option Int))
  deriving DecidableEq, Repr

abbrev Issued := List (Call Nat) × Bool

def Issued.andThen (first second : Issued) : Issued := if first.2 then (first.1 ++ second.1,second.2) else first

def Issued.all (stage : ExeNode → Issued) (nodes : List ExeNode) : Issued :=
  nodes.foldr (fun node rest => (stage node).andThen rest) ([],true)

def outputCalls (id : Nat) (output : List (Option (Nat × Int)) × Nat) : List (Call Nat) :=
  .add (outputEnd id output.2) ::
    output.1.filterMap (Option.map fun edge => .merge (outputEnd id output.2) (inputEnd edge.1 edge.2))

/-- `ConstructIoEquivalent`, with the ids that were seen. -/
def constructIoEquivalent (size : Nat) : List Nat → List ExeNode → Issued
  | _,[] => ([],true)
  | seen,node :: nodes =>
    if node.id < size ∧ node.id ∉ seen then
      Issued.andThen (node.outEdges.zipIdx.flatMap (outputCalls node.id),true)
        (constructIoEquivalent size (node.id :: seen) nodes)
    else ([],false)

def constructInnerEquivalent (node : ExeNode) : Issued :=
  match node.type,node.parent with
  | .innerData (some index),some parent => ([.merge (inputEnd parent index) (outputEnd node.id 0)],true)
  | .innerNetOutput,some parent =>
    (node.inEdges.filterMap (Option.map fun index => .merge (inputEnd node.id index) (outputEnd parent index)),true)
  | .other,_ => ([],true)
  | _,_ => ([],false)

def constructRefEquivalent (all : List ExeNode) (node : ExeNode) : Issued :=
  node.refs.zipIdx.foldr (fun (ref,i) rest =>
    match ref with
    | none => rest
    | some (name,index) =>
      match index,all.find? (·.name = name) with
      | some index,some source => Issued.andThen ([.merge (outputEnd node.id i) (outputEnd source.id index)],true) rest
      | _,_ => ([],false)) ([],true)

def updateEquivalentEdges (nodes : List ExeNode) : Issued :=
  ((constructIoEquivalent nodes.length [] nodes).andThen (Issued.all constructInnerEquivalent nodes)).andThen
    (Issued.all (constructRefEquivalent nodes) nodes)

theorem encode_eq (point : EndPoint) :
    encode point = point.id.val + 2 ^ 32 * point.index.val + 2 ^ 63 * point.direction.val := by
  have id := point.id.isLt
  have index := point.index.isLt
  have low : point.id.val ||| point.index.val <<< 32 = point.index.val <<< 32 + point.id.val := by
    rw [Nat.or_comm,Nat.shiftLeft_add_eq_or_of_lt id]
  have small : point.index.val <<< 32 + point.id.val < 2 ^ 63 := by
    rw [Nat.shiftLeft_eq]
    omega
  rw [encode,low,Nat.or_comm,← Nat.shiftLeft_add_eq_or_of_lt small,Nat.shiftLeft_eq,Nat.shiftLeft_eq]
  omega

theorem decode_encode (point : EndPoint) : decode (encode point) = (point.id.val,point.index.val,point.direction.val) := by
  have id := point.id.isLt
  have index := point.index.isLt
  have word := encode_eq point
  have low : encode point &&& 0xffffffff = encode point % 2 ^ 32 := Nat.and_two_pow_sub_one_eq_mod _ 32
  have middle : encode point >>> 32 &&& 0x7fffffff = encode point >>> 32 % 2 ^ 31 := Nat.and_two_pow_sub_one_eq_mod _ 31
  rw [decode,low,middle,Nat.shiftRight_eq_div_pow,Nat.shiftRight_eq_div_pow]
  refine Prod.ext ?_ (Prod.ext ?_ ?_)
  all_goals
    dsimp only
    omega

theorem encode_injective {point other : EndPoint} (same : encode point = encode other) : point = other := by
  have parts := congrArg decode same
  rw [decode_encode,decode_encode] at parts
  simp only [Prod.mk.injEq] at parts
  cases point
  cases other
  simp only [EndPoint.mk.injEq,Fin.ext_iff]
  exact parts

theorem outputEnd_ne_inputEnd (id id' : Nat) (index index' : Int) : outputEnd id index ≠ inputEnd id' index' := by
  intro same
  have direction := congrArg EndPoint.direction (encode_injective same)
  exact absurd direction (by simp [EndPoint.make])

variable {id id' : Nat} {later : Call Nat} {size : Nat} {seen : List Nat} {nodes : List ExeNode}
  {first second : Issued}

theorem outputEnd_injective {index index' : Nat} (bounds : id < 2 ^ 32 ∧ id' < 2 ^ 32 ∧ index < 2 ^ 31 ∧ index' < 2 ^ 31)
    (same : outputEnd id index = outputEnd id' index') : id = id' ∧ index = index' := by
  have point := encode_injective same
  simp only [EndPoint.make,EndPoint.mk.injEq,Fin.mk.injEq] at point
  omega

def Precedes (earlier later : Call Nat) : Prop := ∀ endpoint, later = .add endpoint → endpoint ∉ earlier.ends

theorem precedes_of_merge (merge : ∀ endpoint, later ≠ .add endpoint) (earlier : Call Nat) :
    Precedes earlier later := fun endpoint add => absurd add (merge endpoint)

theorem precedes_outputCalls {output output' : List (Option (Nat × Int)) × Nat}
    (apart : outputEnd id output.2 ≠ outputEnd id' output'.2) {earlier : Call Nat}
    (first : earlier ∈ outputCalls id output) (second : later ∈ outputCalls id' output') : Precedes earlier later := by
  intro endpoint add
  subst add
  have now : endpoint = outputEnd id' output'.2 := by simpa [outputCalls] using second
  subst now
  rcases mem_cons.mp first with rfl | merge
  · simpa [Call.ends] using Ne.symm apart
  · obtain ⟨edge,-,rfl⟩ : ∃ edge : Nat × Int, some edge ∈ output.1 ∧
        Call.merge (outputEnd id output.2) (inputEnd edge.1 edge.2) = earlier := by simpa using merge
    simpa [Call.ends] using ⟨Ne.symm apart,outputEnd_ne_inputEnd _ _ _ _⟩

theorem fresh_outputCalls (id : Nat) (output : List (Option (Nat × Int)) × Nat) : FreshAdds (outputCalls id output) := by
  have merges : ∀ call ∈ output.1.filterMap
      (Option.map fun edge => Call.merge (outputEnd id output.2) (inputEnd edge.1 edge.2)), ∀ endpoint, call ≠ .add endpoint := by
    intro call there endpoint
    obtain ⟨edge,-,rfl⟩ : ∃ edge : Nat × Int, some edge ∈ output.1 ∧
      Call.merge (outputEnd id output.2) (inputEnd edge.1 edge.2) = call := by simpa using there
    nofun
  refine pairwise_cons.mpr ⟨?_,?_⟩
  · intro later there
    exact precedes_of_merge (merges later there) _
  · exact pairwise_of_forall_mem_list fun _ _ later there => precedes_of_merge (merges later there) _

theorem fresh_nodeCalls {node : ExeNode} (id : node.id < 2 ^ 32) (outputs : node.outEdges.length ≤ 2 ^ 31) :
    FreshAdds (node.outEdges.zipIdx.flatMap (outputCalls node.id)) := by
  have indexes : node.outEdges.zipIdx.Pairwise fun first second => first.2 ≠ second.2 := by
    rw [← pairwise_map,zipIdx_map_snd]
    exact nodup_range'
  refine pairwise_flatMap.mpr ⟨fun output _ => fresh_outputCalls _ _,?_⟩
  refine indexes.imp_of_mem ?_
  intro first second one two different earlier there later there'
  apply precedes_outputCalls _ there there'
  intro same
  have bound := (mem_zipIdx one).2.1
  have bound' := (mem_zipIdx two).2.1
  exact different (outputEnd_injective (by omega) same).2

structure InRange (nodes : List ExeNode) : Prop where
  ids : nodes.length ≤ 2 ^ 32
  outputs : ∀ node ∈ nodes, node.outEdges.length ≤ 2 ^ 31

theorem constructIoEquivalent_calls {call : Call Nat}
    (outputs : ∀ node ∈ nodes, node.outEdges.length ≤ 2 ^ 31) (there : call ∈ (constructIoEquivalent size seen nodes).1) :
    ∃ id output, call ∈ outputCalls id output ∧ id < size ∧ id ∉ seen ∧ output.2 < 2 ^ 31 := by
  induction nodes generalizing seen with
  | nil => simp [constructIoEquivalent] at there
  | cons node nodes ih =>
    rw [constructIoEquivalent] at there
    split at there
    · rename_i accepted
      rcases mem_append.mp there with here | later
      · obtain ⟨output,member,inside⟩ := mem_flatMap.mp here
        have bound := (mem_zipIdx member).2.1
        have small := outputs node mem_cons_self
        exact ⟨node.id,output,inside,accepted.1,accepted.2,by omega⟩
      · obtain ⟨id,output,inside,small,fresh,bound⟩ := ih (fun other member => outputs other (mem_cons_of_mem _ member)) later
        exact ⟨id,output,inside,small,fun old => fresh (mem_cons_of_mem _ old),bound⟩
    · simp at there

theorem fresh_constructIoEquivalent (ids : size ≤ 2 ^ 32)
    (outputs : ∀ node ∈ nodes, node.outEdges.length ≤ 2 ^ 31) : FreshAdds (constructIoEquivalent size seen nodes).1 := by
  induction nodes generalizing seen with
  | nil => exact List.Pairwise.nil
  | cons node nodes ih =>
    have outputs' : ∀ other ∈ nodes, other.outEdges.length ≤ 2 ^ 31 := fun other member =>
      outputs other (mem_cons_of_mem _ member)
    have small := outputs node mem_cons_self
    rw [constructIoEquivalent]
    split
    · rename_i accepted
      refine pairwise_append.mpr ⟨fresh_nodeCalls (by omega) small,ih outputs',?_⟩
      intro earlier here later there
      obtain ⟨output,member,inside⟩ := mem_flatMap.mp here
      obtain ⟨id,output',inside',bound,fresh,bound'⟩ := constructIoEquivalent_calls outputs' there
      apply precedes_outputCalls _ inside inside'
      intro same
      have index := (mem_zipIdx member).2.1
      obtain ⟨old,-⟩ := outputEnd_injective (by omega) same
      exact fresh (old ▸ mem_cons_self)
    · exact List.Pairwise.nil

def OnlyMerges (issued : Issued) : Prop := ∀ call ∈ issued.1, ∀ endpoint, call ≠ .add endpoint

theorem OnlyMerges.andThen (one : OnlyMerges first) (two : OnlyMerges second) : OnlyMerges (first.andThen second) := by
  rw [Issued.andThen]
  split
  · intro call there
    exact (mem_append.mp there).elim (one call) (two call)
  · exact one

theorem onlyMerges_all {stage : ExeNode → Issued} (each : ∀ node, OnlyMerges (stage node)) (nodes : List ExeNode) :
    OnlyMerges (Issued.all stage nodes) := by
  induction nodes with
  | nil => exact fun _ => nofun
  | cons node nodes ih => exact (each node).andThen ih

theorem onlyMerges_inner (node : ExeNode) : OnlyMerges (constructInnerEquivalent node) := by
  intro call there endpoint
  rw [constructInnerEquivalent] at there
  split at there
  · simp [mem_singleton.mp there]
  · obtain ⟨index,-,rfl⟩ : ∃ index : Int, some index ∈ node.inEdges ∧ Call.merge _ _ = call := by simpa using there
    nofun
  · simp at there
  · simp at there

theorem onlyMerges_ref (all : List ExeNode) (node : ExeNode) : OnlyMerges (constructRefEquivalent all node) := by
  rw [constructRefEquivalent]
  induction node.refs.zipIdx with
  | nil => exact fun _ => nofun
  | cons output refs ih =>
    obtain ⟨ref,i⟩ := output
    rw [foldr_cons]
    cases ref with
    | none => exact ih
    | some source =>
      dsimp only
      split
      · refine OnlyMerges.andThen ?_ ih
        intro call there endpoint
        simp [mem_singleton.mp there]
      · exact fun _ => nofun

theorem fresh_andThen (fresh : FreshAdds first.1) (merges : OnlyMerges second) : FreshAdds (first.andThen second).1 := by
  rw [Issued.andThen]
  split
  · refine pairwise_append.mpr ⟨fresh,pairwise_of_forall_mem_list ?_,?_⟩
    all_goals exact fun earlier _ later there => precedes_of_merge (merges later there) earlier
  · exact fresh

theorem fresh_updateEquivalentEdges (range : InRange nodes) : FreshAdds (updateEquivalentEdges nodes).1 :=
  fresh_andThen (fresh_andThen (fresh_constructIoEquivalent range.ids range.outputs)
    (onlyMerges_all onlyMerges_inner nodes)) (onlyMerges_all (onlyMerges_ref nodes) nodes)

/-- After every call of `UpdateEquivalentEdges` two end points have one symbol exactly if the merges so far equate them, and
end points in range have codes of their own. -/
theorem equivalent_data_edges (nodes : List ExeNode) (range : InRange nodes) :
    (∀ done rest, (updateEquivalentEdges nodes).1 = done ++ rest →
      EquivalentDataEdges.LeastEquivalence done (EquivalentDataEdges.run done)) ∧
    ∀ id < 2 ^ 32, ∀ id' < 2 ^ 32, ∀ index < 2 ^ 31, ∀ index' < 2 ^ 31, ∀ direction direction',
      encode (.make id (index : Nat) direction) = encode (.make id' (index' : Nat) direction') →
      id = id' ∧ index = index' ∧ direction = direction' := by
  refine ⟨?_,?_⟩
  · intro done rest split
    have fresh := fresh_updateEquivalentEdges range
    rw [split,FreshAdds,pairwise_append] at fresh
    exact (EquivalentDataEdges.tracks_run fresh.1).leastEquivalence
  · intro id small id' small' index bound index' bound' direction direction' same
    have point := encode_injective same
    simp only [EndPoint.make,EndPoint.mk.injEq,Fin.mk.injEq] at point
    refine ⟨by omega,by omega,point.2.2⟩

def twoNodes : List ExeNode :=
  [⟨0,"a",.other,none,[[some (1,0)]],[],[none]⟩,⟨1,"b",.other,none,[[]],[some 0],[some ("a",some 0)]⟩]

theorem equivalent_data_edges_two : EquivalentDataEdges.LeastEquivalence (updateEquivalentEdges twoNodes).1
      (EquivalentDataEdges.run (updateEquivalentEdges twoNodes).1) :=
  (equivalent_data_edges twoNodes ⟨by decide,by decide⟩).1 _ [] (append_nil _).symm

end Graph
end GraphEngine.Executor
