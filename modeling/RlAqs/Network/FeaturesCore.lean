import RlAqs.Network.NetworkCore
import Mathlib.Data.Int.Order.Basic

/-!
`establishFeatures`, which gives every vertex a choice among the features of its out-neighbours.
The sets of the features are iterated in ascending order.
-/

namespace RlAqs

structure IntSet where
  elements : List Int
  sorted : elements.Pairwise (· < ·)

namespace IntSet

instance : Membership Int IntSet := ⟨fun set x => x ∈ set.elements⟩

instance (set : IntSet) (x : Int) : Decidable (x ∈ set) := inferInstanceAs (Decidable (x ∈ set.elements))

def empty : IntSet := ⟨[], List.Pairwise.nil⟩

def insertElement (x : Int) : List Int → List Int
  | [] => [x]
  | y :: rest => if x < y then x :: y :: rest else if x = y then y :: rest else y :: insertElement x rest

theorem mem_insertElement {x z : Int} {elements : List Int} :
    z ∈ insertElement x elements ↔ z = x ∨ z ∈ elements := by
  induction elements with
  | nil => simp [insertElement]
  | cons y rest ih =>
      simp only [insertElement]
      split_ifs with less same
      · simp
      · simp [same]
      · rw [List.mem_cons, ih, List.mem_cons]
        tauto

theorem sorted_insertElement {x : Int} {elements : List Int} (sorted : elements.Pairwise (· < ·)) :
    (insertElement x elements).Pairwise (· < ·) := by
  induction elements with
  | nil => simp [insertElement]
  | cons y rest ih =>
      obtain ⟨first, later⟩ := List.pairwise_cons.mp sorted
      simp only [insertElement]
      split_ifs with less same
      · refine List.pairwise_cons.mpr ⟨fun z member => ?_, sorted⟩
        rcases List.mem_cons.mp member with rfl | inside
        · exact less
        · exact less.trans (first z inside)
      · exact sorted
      · refine List.pairwise_cons.mpr ⟨fun z member => ?_, ih later⟩
        rcases mem_insertElement.mp member with rfl | inside
        · omega
        · exact first z inside

def insert (set : IntSet) (x : Int) : IntSet :=
  ⟨insertElement x set.elements, sorted_insertElement set.sorted⟩

@[simp]
theorem mem_insert {set : IntSet} {x z : Int} : z ∈ set.insert x ↔ z = x ∨ z ∈ set :=
  mem_insertElement

@[simp]
theorem not_mem_empty (x : Int) : x ∉ empty := List.not_mem_nil

def insertAll (set other : IntSet) : IntSet := other.elements.foldl insert set

theorem mem_insertAll {set other : IntSet} {z : Int} :
    z ∈ set.insertAll other ↔ z ∈ other ∨ z ∈ set := by
  have inserted : ∀ (elements : List Int) (set : IntSet),
      z ∈ elements.foldl insert set ↔ z ∈ elements ∨ z ∈ set := by
    intro elements
    induction elements with
    | nil => simp
    | cons x rest ih =>
        intro set
        rw [List.foldl_cons, ih, mem_insert, List.mem_cons]
        tauto
  exact inserted other.elements set

def intersect (set other : IntSet) : IntSet :=
  ⟨set.elements.filter (· ∈ other), set.sorted.filter _⟩

theorem mem_intersect {set other : IntSet} {z : Int} :
    z ∈ set.intersect other ↔ z ∈ set ∧ z ∈ other :=
  List.mem_filter.trans (and_congr_right fun _ => decide_eq_true_iff)

theorem intersect_eq_self {set other : IntSet} (inside : ∀ x ∈ set, x ∈ other) :
    set.intersect other = set := by
  cases set with
  | mk elements sorted =>
      simp only [intersect, mk.injEq]
      exact List.filter_eq_self.mpr fun x member => decide_eq_true (inside x member)

end IntSet

structure Features where
  features : Nat → IntSet
  choice : Nat → Int
  /-- The counter has 16 bits. -/
  numFeatures : Nat

namespace Features

def fresh (choice : Nat → Int) : Features where
  features _ := IntSet.empty
  choice := choice
  numFeatures := 0

/-- The scratch sets of the loop over the out-edges, and the vector. The second set is not cleared. -/
structure Scratch where
  t1 : IntSet
  t2 : IntSet
  intersection : List Int

def Scratch.turn (features : Nat → IntSet) (scratch : Scratch) (target : Nat) : Scratch :=
  let t2 := scratch.t2.insertAll (features target)
  let intersection := scratch.t1.intersect t2
  { t1 := intersection, t2 := t2, intersection := intersection.elements }

/-- The vector after the loop, which starts behind the first out-edge. -/
def intersection (features : Nat → IntSet) : List Nat → List Int
  | [] => []
  | first :: rest =>
      (rest.foldl (Scratch.turn features)
        { t1 := features first, t2 := IntSet.empty, intersection := [] }).intersection

def create (state : Features) (targets : List Nat) (vertex : Nat) : Features :=
  let numFeatures := (state.numFeatures + 1) % 65536
  { features := targets.foldl (fun features target =>
      Function.update features target ((features target).insert numFeatures)) state.features
    choice := Function.update state.choice vertex numFeatures
    numFeatures := numFeatures }

def establish (targets : List Nat) (draw vertex : Nat) (state : Features) : Features :=
  let outdegree := targets.length % 65536
  if outdegree > 0 then
    let intersection := intersection state.features targets
    if intersection ≠ [] then
      let choice := draw % intersection.length
      { state with choice := Function.update state.choice vertex (intersection.getD choice 0) }
    else state.create targets vertex
  else state

end Features

namespace Network

def targets (routines : Routines) (network : Network) (vertex : Nat) : List Nat :=
  (network.outEdges routines vertex).map Prod.snd

def featuresAt (routines : Routines) (network : Network) (draws : Nat → Nat) (start : Features)
    (count : Nat) : Features :=
  (List.range count).foldl
    (fun state vertex => state.establish (network.targets routines vertex) (draws vertex) vertex) start

def establishFeatures (routines : Routines) (network : Network) (draws : Nat → Nat)
    (start : Features) : Features :=
  network.featuresAt routines draws start network.size

end Network

end RlAqs
