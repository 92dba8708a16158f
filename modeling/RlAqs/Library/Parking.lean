import Mathlib.Data.Finset.Card
import Mathlib.Data.Finset.Max
import Mathlib.Order.Interval.Finset.Nat

/-!
Cars on a one-way street: each goes to the spot it prefers and takes the first free one from there
on. All of them park when, for every spot, those that prefer it or a later one fit in behind it.
-/

namespace Parking

variable {spots : Nat}

/-- One car with its preference. -/
inductive Parks (spots prefers : Nat) (occupied : Finset Nat) : Finset Nat → Prop
  | parked {spot} (inside : spot < spots) (reached : prefers ≤ spot) (free : spot ∉ occupied)
      (passed : ∀ other, prefers ≤ other → other < spot → other ∈ occupied) :
      Parks spots prefers occupied (insert spot occupied)
  | leaves (full : ∀ spot, spot < spots → prefers ≤ spot → spot ∈ occupied) :
      Parks spots prefers occupied occupied

inductive Run (spots : Nat) : List Nat → Finset Nat → Finset Nat → Prop
  | done (occupied) : Run spots [] occupied occupied
  | next {prefers cars before middle after} (first : Parks spots prefers before middle)
      (rest : Run spots cars middle after) : Run spots (prefers :: cars) before after

def beyond (occupied : Finset Nat) (spot : Nat) : Nat := (occupied.filter (spot ≤ ·)).card

theorem beyond_insert {occupied : Finset Nat} {spot query : Nat} (free : spot ∉ occupied) :
    beyond (insert spot occupied) query = beyond occupied query + if query ≤ spot then 1 else 0 := by
  unfold beyond
  rw [Finset.filter_insert]
  split
  · exact Finset.card_insert_of_notMem fun member => free (Finset.mem_of_mem_filter spot member)
  · rfl

theorem beyond_le {occupied : Finset Nat} (inside : occupied ⊆ Finset.range spots) (spot : Nat) :
    beyond occupied spot ≤ spots - spot := by
  rw [← Nat.card_Ico]
  refine Finset.card_le_card fun other member => ?_
  obtain ⟨taken, later⟩ := Finset.mem_filter.mp member
  exact Finset.mem_Ico.mpr ⟨later, Finset.mem_range.mp (inside taken)⟩

theorem Parks.subset {prefers : Nat} {before after : Finset Nat}
    (parks : Parks spots prefers before after) : before ⊆ after := by
  cases parks with
  | parked => exact Finset.subset_insert _ _
  | leaves => exact Finset.Subset.refl _

theorem Parks.inside {prefers : Nat} {before after : Finset Nat}
    (parks : Parks spots prefers before after) (inside : before ⊆ Finset.range spots) :
    after ⊆ Finset.range spots := by
  cases parks with
  | parked bound => exact Finset.insert_subset (Finset.mem_range.mpr bound) inside
  | leaves => exact inside

/-- A car that prefers a spot from `query` on takes one there, or drives off. -/
theorem Parks.beyond_le {prefers : Nat} {before after : Finset Nat}
    (parks : Parks spots prefers before after) (query : Nat) :
    (if query ≤ prefers then 1 else 0) + beyond before query + after.card ≤
      beyond after query + 1 + before.card := by
  cases parks with
  | parked inside reached free passed =>
      rw [beyond_insert free, Finset.card_insert_of_notMem free]
      split_ifs <;> omega
  | leaves full => split_ifs <;> omega

theorem Parks.beyond_eq {prefers query : Nat} {before after : Finset Nat}
    (parks : Parks spots prefers before after) (inside : query ≤ spots)
    (free : query = 0 ∨ query - 1 ∉ after) :
    (if query ≤ prefers then 1 else 0) + beyond before query + after.card =
      beyond after query + 1 + before.card := by
  cases parks with
  | @parked spot bound reached vacant passed =>
      have stops : query ≤ spot → query ≤ prefers := by
        intro later
        by_contra short
        have taken := passed (query - 1) (by omega) (by omega)
        exact free.elim (by omega) fun open_spot => open_spot (Finset.mem_insert_of_mem taken)
      rw [beyond_insert vacant, Finset.card_insert_of_notMem vacant]
      split_ifs <;> omega
  | leaves full =>
      have stops : query ≤ prefers := by
        by_contra short
        have taken := full (query - 1) (by omega) (by omega)
        exact free.elim (by omega) fun open_spot => open_spot taken
      rw [if_pos stops]
      omega

theorem Run.subset {cars : List Nat} {before after : Finset Nat}
    (run : Run spots cars before after) : before ⊆ after := by
  induction run with
  | done => exact Finset.Subset.refl _
  | next first _ ih => exact first.subset.trans ih

theorem Run.inside {cars : List Nat} {before after : Finset Nat}
    (run : Run spots cars before after) (inside : before ⊆ Finset.range spots) :
    after ⊆ Finset.range spots := by
  induction run with
  | done => exact inside
  | next first _ ih => exact ih (first.inside inside)

theorem Run.beyond_le {cars : List Nat} {before after : Finset Nat}
    (run : Run spots cars before after) (query : Nat) :
    cars.countP (query ≤ ·) + beyond before query + after.card ≤
      beyond after query + cars.length + before.card := by
  induction run with
  | done => simp
  | @next prefers cars before middle after first _ ih =>
      have step := first.beyond_le query
      rw [List.countP_cons, List.length_cons]
      simp only [decide_eq_true_eq]
      omega

theorem Run.beyond_eq {cars : List Nat} {before after : Finset Nat}
    (run : Run spots cars before after) {query : Nat} (inside : query ≤ spots)
    (free : query = 0 ∨ query - 1 ∉ after) :
    cars.countP (query ≤ ·) + beyond before query + after.card =
      beyond after query + cars.length + before.card := by
  induction run with
  | done => simp
  | @next prefers cars before middle after first rest ih =>
      have later := ih free
      have step := first.beyond_eq inside
        (free.imp_right fun open_spot taken => open_spot (rest.subset taken))
      rw [List.countP_cons, List.length_cons]
      simp only [decide_eq_true_eq]
      omega

theorem exists_free (spots : Nat) (occupied : Finset Nat) :
    ∃ query ≤ spots, Finset.Ico query spots ⊆ occupied ∧ (query = 0 ∨ query - 1 ∉ occupied) := by
  have some_query : ∃ query, Finset.Ico query spots ⊆ occupied := ⟨spots, by simp⟩
  refine ⟨Nat.find some_query, Nat.find_le (by simp), Nat.find_spec some_query, ?_⟩
  by_cases zero : Nat.find some_query = 0
  · exact .inl zero
  · right
    intro taken
    refine Nat.find_min some_query (Nat.sub_one_lt zero) fun spot member => ?_
    obtain ⟨lower, upper⟩ := Finset.mem_Ico.mp member
    by_cases same : spot = Nat.find some_query - 1
    · exact same ▸ taken
    · exact Nat.find_spec some_query (Finset.mem_Ico.mpr ⟨by omega, upper⟩)

/-- From an empty street, every car parks exactly when no stretch up to the end is preferred by
more cars than it has spots. -/
theorem Run.all_park_iff {cars : List Nat} {after : Finset Nat} (run : Run spots cars ∅ after) :
    after.card = cars.length ↔ ∀ query ≤ spots, cars.countP (query ≤ ·) ≤ spots - query := by
  have inside : after ⊆ Finset.range spots := run.inside (Finset.empty_subset _)
  have empty : ∀ query, beyond ∅ query = 0 := fun _ => rfl
  constructor
  · intro all query _
    have counted := run.beyond_le query
    have room := Parking.beyond_le inside query
    rw [empty, Finset.card_empty] at counted
    omega
  · intro fits
    obtain ⟨query, bound, full, free⟩ := exists_free spots after
    have counted := run.beyond_eq bound free
    have most := run.beyond_le spots
    have none := Parking.beyond_le inside spots
    have taken : spots - query ≤ beyond after query := by
      rw [← Nat.card_Ico]
      refine Finset.card_le_card fun spot member => ?_
      exact Finset.mem_filter.mpr ⟨full member, (Finset.mem_Ico.mp member).1⟩
    have fit := fits query bound
    rw [empty, Finset.card_empty] at counted most
    omega

end Parking
