import RlAqs.Queue.QueueCore
import Mathlib.Data.Multiset.Basic
import Mathlib.Tactic.Linarith
import Mathlib.Tactic.Push

/-! The sorted list of the bottom and the time range of the top. -/

namespace RlAqs

def Entry.NoLater (left right : Entry) : Prop :=
  left.arrival < right.arrival ∨ (left.arrival = right.arrival ∧ left.gid ≤ right.gid)

theorem Entry.noLater_iff {left right : Entry} :
    left.NoLater right ↔ right.lt left = false := by
  simp only [NoLater, lt]
  split
  · rename_i equal
    simp [equal]
  · rename_i different
    simp only [decide_eq_false_iff_not, not_lt]
    constructor
    · rintro (less | ⟨equal, _⟩)
      · exact less.le
      · exact absurd equal.symm different
    · intro order
      exact .inl (lt_of_le_of_ne order fun equal => different equal.symm)

theorem Entry.NoLater.arrival {left right : Entry} (order : left.NoLater right) :
    left.arrival ≤ right.arrival := by
  rcases order with less | ⟨equal, _⟩
  · exact less.le
  · exact equal.le

theorem Entry.NoLater.trans {first second third : Entry} (left : first.NoLater second)
    (right : second.NoLater third) : first.NoLater third := by
  rcases left with less | ⟨equal, gid⟩
  · exact .inl (less.trans_le right.arrival)
  · rcases right with less | ⟨equal', gid'⟩
    · exact .inl (equal.trans_lt less)
    · exact .inr ⟨equal.trans equal', gid.trans gid'⟩

theorem Entry.noLater_total (left right : Entry) :
    left.NoLater right ∨ right.NoLater left := by
  rcases lt_trichotomy left.arrival right.arrival with less | equal | greater
  · exact .inl (.inl less)
  · rcases le_total left.gid right.gid with order | order
    · exact .inl (.inr ⟨equal, order⟩)
    · exact .inr (.inr ⟨equal.symm, order⟩)
  · exact .inr (.inl greater)

theorem sortEntries_perm (list : List Entry) : (sortEntries list).Perm list :=
  List.perm_insertionSort _ list

theorem sortEntries_sorted (list : List Entry) : (sortEntries list).Pairwise Entry.NoLater := by
  have total : Std.Total fun left right : Entry => right.lt left = false :=
    ⟨fun left right => by
      rw [← Entry.noLater_iff, ← Entry.noLater_iff]
      exact Entry.noLater_total left right⟩
  have trans : IsTrans Entry fun left right : Entry => right.lt left = false :=
    ⟨fun first second third => by
      rw [← Entry.noLater_iff, ← Entry.noLater_iff, ← Entry.noLater_iff]
      exact Entry.NoLater.trans⟩
  have sorted := List.pairwise_insertionSort
    (fun left right : Entry => right.lt left = false) list
  exact sorted.imp Entry.noLater_iff.mpr

namespace Bottom

def Sorted (list : List Entry) : Prop :=
  list.Pairwise fun left right => left.arrival ≤ right.arrival

theorem sortEntries_timed (list : List Entry) : Sorted (sortEntries list) :=
  (sortEntries_sorted list).imp Entry.NoLater.arrival

def inserted (list : List Entry) (entry : Entry) : List Entry :=
  match list.getLast? with
  | none => list ++ [entry]
  | some back =>
      if back.arrival ≤ entry.arrival then list ++ [entry]
      else (insertFromBack entry list.reverse).reverse

theorem push_refused {bottom : Bottom} {entry : Entry} (past : entry.arrival < bottom.lastEvent) :
    bottom.push entry = (.error (.thrown .pastEventNotAllowed), bottom) := by
  simp only [push, past, ↓reduceIte]

theorem push_eq {bottom : Bottom} {entry : Entry} (fresh : ¬ entry.arrival < bottom.lastEvent) :
    bottom.push entry = (.ok true, { bottom with list := inserted bottom.list entry }) := by
  simp only [push, fresh, ↓reduceIte, inserted]
  cases bottom.list.getLast? with
  | none => rfl
  | some back =>
      simp only
      split <;> rfl

theorem insertFromBack_split (entry : Entry) (list : List Entry) :
    ∃ later earlier, list = later ++ earlier ∧
      insertFromBack entry list = later ++ entry :: earlier ∧
      (∀ x ∈ later, entry.arrival < x.arrival) ∧
      ∀ x ∈ earlier.head?, x.arrival ≤ entry.arrival := by
  induction list with
  | nil => exact ⟨[], [], rfl, rfl, by simp, by simp⟩
  | cons last rest ih =>
      simp only [insertFromBack]
      split
      · rename_i order
        exact ⟨[], last :: rest, rfl, rfl, by simp, by simpa using order⟩
      · rename_i order
        obtain ⟨later, earlier, whole, result, above, below⟩ := ih
        refine ⟨last :: later, earlier, ?_, ?_, ?_, below⟩
        · rw [whole, List.cons_append]
        · rw [result, List.cons_append]
        · intro x member
          rcases List.mem_cons.mp member with rfl | member
          · exact not_le.mp order
          · exact above x member

theorem inserted_split {list : List Entry} (entry : Entry) (sorted : Sorted list) :
    ∃ before after, list = before ++ after ∧ inserted list entry = before ++ entry :: after ∧
      (∀ x ∈ before, x.arrival ≤ entry.arrival) ∧ ∀ x ∈ after, entry.arrival < x.arrival := by
  have earlier_than_last : ∀ (start : List Entry) (last : Entry), Sorted (start ++ [last]) →
      ∀ x ∈ start ++ [last], x.arrival ≤ last.arrival := by
    intro start last order x member
    rcases List.mem_append.mp member with inside | final
    · exact (List.pairwise_append.mp order).2.2 x inside last (by simp)
    · rw [List.mem_singleton.mp final]
  rcases List.eq_nil_or_concat list with rfl | ⟨start, last, rfl⟩
  · exact ⟨[], [], rfl, rfl, by simp, by simp⟩
  · rw [List.concat_eq_append] at sorted ⊢
    simp only [inserted, List.getLast?_append, List.getLast?_singleton, Option.some_or]
    split
    · rename_i order
      exact ⟨start ++ [last], [], by simp, rfl,
        fun x member => (earlier_than_last start last sorted x member).trans order, by simp⟩
    · obtain ⟨later, earlier, whole, result, above, below⟩ :=
        insertFromBack_split entry (start ++ [last]).reverse
      have split : start ++ [last] = earlier.reverse ++ later.reverse := by
        rw [← List.reverse_append, ← whole, List.reverse_reverse]
      refine ⟨earlier.reverse, later.reverse, split, ?_, ?_, ?_⟩
      · rw [result]
        simp
      · intro x member
        cases earlier with
        | nil => simp at member
        | cons first rest =>
            rw [split, List.reverse_cons] at sorted
            have left : Sorted (rest.reverse ++ [first]) := (List.pairwise_append.mp sorted).1
            rw [List.reverse_cons] at member
            exact (earlier_than_last rest.reverse first left x member).trans
              (below first (by simp))
      · intro x member
        exact above x (List.mem_reverse.mp member)

theorem inserted_perm {list : List Entry} (entry : Entry) (sorted : Sorted list) :
    (inserted list entry).Perm (entry :: list) := by
  obtain ⟨before, after, whole, result, _, _⟩ := inserted_split entry sorted
  rw [result, whole]
  exact List.perm_middle

theorem inserted_coe {list : List Entry} (entry : Entry) (sorted : Sorted list) :
    (inserted list entry : Multiset Entry) = entry ::ₘ (list : Multiset Entry) :=
  Multiset.coe_eq_coe.mpr (inserted_perm entry sorted)

theorem inserted_sorted {list : List Entry} (entry : Entry) (sorted : Sorted list) :
    Sorted (inserted list entry) := by
  obtain ⟨before, after, whole, result, early, late⟩ := inserted_split entry sorted
  rw [result]
  rw [whole] at sorted
  obtain ⟨left, right, across⟩ := List.pairwise_append.mp sorted
  refine List.pairwise_append.mpr ⟨left, List.pairwise_cons.mpr ⟨?_, right⟩, ?_⟩
  · exact fun x member => (late x member).le
  · intro x inside y member
    rcases List.mem_cons.mp member with rfl | member
    · exact early x inside
    · exact across x inside y member

theorem getMin_le {bottom : Bottom} (sorted : Sorted bottom.list) {x : Entry}
    (member : x ∈ bottom.list) : bottom.getMinTS ≤ x.arrival := by
  rw [getMinTS]
  cases list : bottom.list with
  | nil => simp [list] at member
  | cons first rest =>
      rw [list] at sorted member
      rcases List.mem_cons.mp member with rfl | member
      · exact le_refl _
      · exact (List.pairwise_cons.mp sorted).1 x member

theorem le_getMax {bottom : Bottom} (sorted : Sorted bottom.list) {x : Entry}
    (member : x ∈ bottom.list) : x.arrival ≤ bottom.getMaxTS := by
  rw [getMaxTS]
  rcases List.eq_nil_or_concat bottom.list with none | ⟨start, last, list⟩
  · simp [none] at member
  · rw [List.concat_eq_append] at list
    rw [list] at sorted member
    rw [list, List.getLast?_append, List.getLast?_singleton, Option.some_or]
    rcases List.mem_append.mp member with inside | final
    · exact (List.pairwise_append.mp sorted).2.2 x inside last (by simp)
    · rw [List.mem_singleton.mp final]

theorem getMax_mem {bottom : Bottom} (filled : bottom.list ≠ []) :
    ∃ x ∈ bottom.list, x.arrival = bottom.getMaxTS := by
  refine ⟨bottom.list.getLast filled, List.getLast_mem filled, ?_⟩
  rw [getMaxTS, List.getLast?_eq_some_getLast filled]

theorem getMin_le_getMax {bottom : Bottom} (sorted : Sorted bottom.list) :
    bottom.getMinTS ≤ bottom.getMaxTS := by
  by_cases filled : bottom.list = []
  · simp [getMinTS, getMaxTS, filled]
  · obtain ⟨x, member, last⟩ := getMax_mem filled
    exact (getMin_le sorted member).trans last.le

end Bottom

namespace Top

structure Ranged (top : Top) : Prop where
  covers : ∀ x ∈ top.fifo, top.minTS ≤ x.arrival ∧ x.arrival ≤ top.maxTS

theorem Ranged.order {top : Top} (ranged : top.Ranged) (filled : top.fifo ≠ []) :
    top.minTS ≤ top.maxTS := by
  obtain ⟨x, member⟩ := List.exists_mem_of_ne_nil top.fifo filled
  exact (ranged.covers x member).1.trans (ranged.covers x member).2

theorem push_fields (top : Top) (entry : Entry) :
    (top.push entry).fifo = top.fifo ++ [entry] ∧ (top.push entry).topStart = top.topStart ∧
      (top.push entry).maxTS = max top.maxTS entry.arrival ∧
      (top.push entry).minTS = min top.minTS entry.arrival := by
  simp only [push, setMaxTS, setMinTS]
  refine ⟨?_, ?_, ?_, ?_⟩
  · split <;> split <;> rfl
  · split <;> split <;> rfl
  · rw [max_def]
    split <;> split <;> split <;> simp_all <;> linarith
  · rw [min_def]
    split <;> split <;> split <;> simp_all <;> linarith

theorem Ranged.push {top : Top} (ranged : top.Ranged) (entry : Entry) :
    (top.push entry).Ranged := by
  obtain ⟨fifo, _, maxTS, minTS⟩ := push_fields top entry
  constructor
  intro x member
  rw [fifo, List.mem_append, List.mem_singleton] at member
  rw [maxTS, minTS]
  rcases member with member | rfl
  · obtain ⟨lower, upper⟩ := ranged.covers x member
    exact ⟨(min_le_left _ _).trans lower, upper.trans (le_max_left _ _)⟩
  · exact ⟨min_le_right _ _, le_max_right _ _⟩

end Top

end RlAqs
