import Mathlib.Algebra.BigOperators.Fin
import Mathlib.Data.Multiset.AddSub
import Mathlib.Tactic.Abel

/-!
A container that keeps its elements in numbered stages and serves the stages in
ascending order. An element is inserted into a stage, a whole stage is moved
over empty ones, an element is removed. `total` is what the container holds;
`InOrder R` says that what is served from an earlier stage is related by `R` to
what is served from a later one.
-/

namespace Stages

variable {α : Type*}

def insert (stages : Nat → Multiset α) (index : Nat) (x : α) : Nat → Multiset α :=
  Function.update stages index (x ::ₘ stages index)

def move (stages : Nat → Multiset α) (source target : Nat) : Nat → Multiset α :=
  Function.update (Function.update stages source 0) target (stages target + stages source)

def total (count : Nat) (stages : Nat → Multiset α) : Multiset α :=
  ∑ index ∈ Finset.range count, stages index

def InOrder (R : α → α → Prop) (stages : Nat → Multiset α) : Prop :=
  ∀ i j, i < j → ∀ x ∈ stages i, ∀ y ∈ stages j, R x y

theorem total_update (count : Nat) (stages : Nat → Multiset α) (index : Nat)
    (content : Multiset α) (bound : index < count) :
    total count (Function.update stages index content) + stages index =
      total count stages + content := by
  have member : index ∈ Finset.range count := Finset.mem_range.mpr bound
  have split := Finset.sum_update_of_mem member stages content
  have whole := Finset.add_sum_erase (Finset.range count) stages member
  rw [Finset.sdiff_singleton_eq_erase] at split
  simp only [total]
  rw [split, ← whole]
  abel

theorem total_insert (count : Nat) (stages : Nat → Multiset α) (index : Nat) (x : α)
    (bound : index < count) :
    total count (insert stages index x) = x ::ₘ total count stages := by
  have update := total_update count stages index (x ::ₘ stages index) bound
  rw [Multiset.add_cons, ← Multiset.cons_add] at update
  exact add_right_cancel update

theorem total_move (count : Nat) (stages : Nat → Multiset α) (source target : Nat)
    (sourceBound : source < count) (targetBound : target < count)
    (different : source ≠ target) :
    total count (move stages source target) = total count stages := by
  have second := total_update count (Function.update stages source 0) target
    (stages target + stages source) targetBound
  have first := total_update count stages source 0 sourceBound
  rw [Function.update_of_ne different.symm] at second
  rw [add_zero] at first
  simp only [move]
  have sums : total count (Function.update (Function.update stages source 0) target
      (stages target + stages source)) + stages target + stages source =
      total count stages + stages target + stages source := by
    rw [second, ← first]
    abel
  simpa using sums

theorem mem_total {count : Nat} {stages : Nat → Multiset α} {x : α} :
    x ∈ total count stages ↔ ∃ index < count, x ∈ stages index := by
  simp [total, Multiset.mem_sum]

theorem mem_insert {stages : Nat → Multiset α} {index query : Nat} {x y : α} :
    y ∈ insert stages index x query ↔ (query = index ∧ y = x) ∨ y ∈ stages query := by
  by_cases same : query = index
  · subst same
    simp [insert]
  · simp [insert, same]

theorem mem_move {stages : Nat → Multiset α} {source target query : Nat} {y : α}
    (different : source ≠ target) :
    y ∈ move stages source target query ↔
      (query = target ∧ y ∈ stages source) ∨ (query ≠ source ∧ y ∈ stages query) := by
  by_cases atTarget : query = target
  · subst atTarget
    simp [move, Ne.symm different, or_comm]
  · by_cases atSource : query = source
    · subst atSource
      simp [move, atTarget]
    · simp [move, atTarget, atSource]

variable {R : α → α → Prop} {stages : Nat → Multiset α}

theorem inOrder_empty : InOrder R fun _ => (0 : Multiset α) := by
  intro i j _ x member
  simp at member

/-- An insertion keeps the order when what is served before and after agrees with it. -/
theorem InOrder.insert {index : Nat} {x : α} (ordered : InOrder R stages)
    (before : ∀ i < index, ∀ y ∈ stages i, R y x)
    (after : ∀ j > index, ∀ y ∈ stages j, R x y) :
    InOrder R (Stages.insert stages index x) := by
  intro i j less y memberY z memberZ
  rw [mem_insert] at memberY memberZ
  rcases memberY with ⟨rfl, rfl⟩ | memberY
  · rcases memberZ with ⟨rfl, rfl⟩ | memberZ
    · omega
    · exact after j less z memberZ
  · rcases memberZ with ⟨rfl, rfl⟩ | memberZ
    · exact before i less y memberY
    · exact ordered i j less y memberY z memberZ

theorem InOrder.move {source target : Nat} (ordered : InOrder R stages)
    (different : source ≠ target)
    (between : ∀ k, min source target ≤ k → k ≤ max source target → k ≠ source →
      stages k = 0) :
    InOrder R (Stages.move stages source target) := by
  intro i j less y memberY z memberZ
  rw [mem_move different] at memberY memberZ
  have outside : ∀ k w, k ≠ source → w ∈ stages k →
      k < min source target ∨ max source target < k := by
    intro k w notSource member
    by_contra inside
    rw [between k (by omega) (by omega) notSource] at member
    simp at member
  rcases memberY with ⟨rfl, memberY⟩ | ⟨notSource, memberY⟩
  · rcases memberZ with ⟨rfl, memberZ⟩ | ⟨notSource, memberZ⟩
    · omega
    · have place := outside j z notSource memberZ
      exact ordered source j (by omega) y memberY z memberZ
  · rcases memberZ with ⟨rfl, memberZ⟩ | ⟨notSource', memberZ⟩
    · have place := outside i y notSource memberY
      exact ordered i source (by omega) y memberY z memberZ
    · exact ordered i j less y memberY z memberZ

theorem InOrder.mono {smaller : Nat → Multiset α} (ordered : InOrder R stages)
    (subset : ∀ index, smaller index ⊆ stages index) : InOrder R smaller :=
  fun i j less x memberX y memberY =>
    ordered i j less x (subset i memberX) y (subset j memberY)

end Stages
