import RlAqs.Sampling.WalkCore
import Mathlib.Algebra.Order.Field.Rat
import Mathlib.Data.Rat.Floor
import Mathlib.Tactic.Linarith
import Mathlib.Tactic.NormNum
import Mathlib.Tactic.Positivity

/-!
The walk never leaves its vectors, and each of its steps is the normal draw times a volatility
that the bound on the level keeps between two limits.
-/

namespace RlAqs

namespace MFRW

variable {functions : Functions} {settings : Settings} {draws : Draws} {T : Nat}

theorem Ki_get {Nc i : Nat} (inside : i ≤ Nc) : ∃ x, (Ki functions Nc)[i]? = some x := by
  simp [Ki, Nat.lt_succ_of_le inside]

theorem eta_get {t : Nat} (inside : t < T) : ∃ x, (eta draws T)[t]? = some x := by
  simp [eta, inside]

theorem bounded_inside {nmax : ℚ} (room : 0 ≤ nmax) (nt : ℚ) :
    0 ≤ bounded nmax nt ∧ bounded nmax nt ≤ nmax := by
  unfold bounded
  split
  · exact ⟨le_rfl, room⟩
  · rename_i nonneg
    split
    · exact ⟨room, le_rfl⟩
    · rename_i below
      exact ⟨not_lt.mp nonneg, not_lt.mp below⟩

theorem sum_get {n t : Nat} (fewer : n ≤ settings.Nc) (before : n ≤ t) (inside : t < T) :
    ∃ sum, (List.range (n - 1)).foldlM
      (term (Ki functions settings.Nc) (eta draws T) t) 0 = some sum := by
  suffices ∀ terms : List Nat, (∀ i ∈ terms, i + 1 < n) → ∀ sum, ∃ total,
      terms.foldlM (term (Ki functions settings.Nc) (eta draws T) t) sum = some total from
    this _ (fun i member => by have := List.mem_range.mp member; omega) 0
  intro terms
  induction terms with
  | nil => exact fun _ sum => ⟨sum, rfl⟩
  | cons i rest ih =>
      intro low sum
      obtain ⟨first, others⟩ := List.forall_mem_cons.mp low
      obtain ⟨next, nextEq⟩ := @Ki_get functions settings.Nc (i + 1) (by omega)
      obtain ⟨this, thisEq⟩ := @Ki_get functions settings.Nc i (by omega)
      obtain ⟨event, eventEq⟩ := @eta_get draws T (t - i) (by omega)
      have added : term (Ki functions settings.Nc) (eta draws T) t sum i =
          some (sum + (next - this) * event) := by
        simp [term, nextEq, thisEq, eventEq, show i ≤ t by omega]
      rw [List.foldlM_cons, added]
      exact ih others _

structure Stepped (functions : Functions) (settings : Settings) (gaussian element : ℚ) : Prop where
  volatility : ∃ nt, 0 ≤ nt ∧ nt ≤ settings.nmax ∧
    element = settings.d0 * functions.pow settings.lambda nt * gaussian

theorem turn_stepped (logs : functions.log settings.lambda ≠ 0) (room : 0 ≤ settings.nmax)
    {level : Level} (fewer : level.n ≤ settings.Nc) {t : Nat} (inside : t < T) :
    ∃ next element, turn functions settings draws (Ki functions settings.Nc) (eta draws T)
        level t = some (next, element) ∧ next.n ≤ settings.Nc ∧
      Stepped functions settings (draws.gaussian t) element := by
  have positive : 1 + settings.lambda ^ 2 ≠ 0 := by positivity
  obtain ⟨last, lastEq⟩ := @Ki_get functions settings.Nc settings.Nc le_rfl
  obtain ⟨first, firstEq⟩ := @Ki_get functions settings.Nc 0 (Nat.zero_le _)
  obtain ⟨event, eventEq⟩ := @eta_get draws T t inside
  obtain ⟨n, temp1, memory, before, fewer'⟩ : ∃ n temp1,
      second (eta draws T) settings.Nc last level t = some (n, temp1) ∧ n ≤ t ∧
        n ≤ settings.Nc := by
    by_cases late : t > settings.Nc
    · obtain ⟨old, oldEq⟩ := @eta_get draws T (t - settings.Nc - 1) (by omega)
      exact ⟨level.n, last * old, by simp [second, late, oldEq], by omega, fewer⟩
    · exact ⟨t, 0, by simp [second, late], le_rfl, by omega⟩
  obtain ⟨sum, sumEq⟩ : ∃ sum,
      third (Ki functions settings.Nc) (eta draws T) level n t = some sum := by
    unfold third
    split
    · exact sum_get fewer' before inside
    · exact ⟨level.sum, rfl⟩
  simp only [turn, divide, if_neg logs, if_neg positive, lastEq, firstEq, eventEq, memory, sumEq,
    Option.bind_eq_bind, Option.bind_some, Option.pure_def]
  obtain ⟨nonneg, below⟩ := bounded_inside room (level.nt + (event +
    settings.a0 / functions.log settings.lambda * (first * event - temp1 + sum) -
    settings.b * (2 * (1 / (1 + settings.lambda ^ 2)) - 1)))
  exact ⟨_, _, rfl, fewer', _, nonneg, below, rfl⟩

theorem turns_stepped (logs : functions.log settings.lambda ≠ 0) (room : 0 ≤ settings.nmax)
    {level : Level} (fewer : level.n ≤ settings.Nc) {t remaining : Nat} (whole : t + remaining = T) :
    ∃ elements, turns functions settings draws (Ki functions settings.Nc) (eta draws T) level t
        remaining = some elements ∧ elements.length = remaining ∧
      ∀ i < remaining, Stepped functions settings (draws.gaussian (t + i)) (elements.getD i 0) := by
  induction remaining generalizing level t with
  | zero => exact ⟨[], rfl, rfl, by simp⟩
  | succ remaining ih =>
      obtain ⟨next, element, turned, fewer', stepped⟩ :=
        @turn_stepped functions settings draws T logs room level fewer t (by omega)
      obtain ⟨later, looped, length, others⟩ := ih fewer' (by omega : t + 1 + remaining = T)
      refine ⟨element :: later, ?_, by rw [List.length_cons, length], fun i earlier => ?_⟩
      · simp [turns, turned, looped]
      · cases i with
        | zero => exact stepped
        | succ i =>
            rw [List.getD_cons_succ, ← Nat.add_assoc, Nat.add_right_comm]
            exact others i (by omega)

theorem cumsum_length (before : ℚ) (elements : List ℚ) :
    (cumsum before elements).length = elements.length := by
  induction elements generalizing before with
  | nil => rfl
  | cons element rest ih => rw [cumsum, List.length_cons, ih, List.length_cons]

theorem cumsum_step (before : ℚ) {elements : List ℚ} {i : Nat} (inside : i < elements.length) :
    (cumsum before elements).getD i 0 -
        (if i = 0 then before else (cumsum before elements).getD (i - 1) 0) =
      elements.getD i 0 := by
  induction elements generalizing before i with
  | nil => cases inside
  | cons element rest ih =>
      rw [cumsum]
      cases i with
      | zero => simp
      | succ i =>
          have later := ih (before + element) (Nat.lt_of_succ_lt_succ inside)
          rw [List.getD_cons_succ, List.getD_cons_succ, if_neg (Nat.succ_ne_zero i), ← later,
            Nat.add_sub_cancel]
          cases i with
          | zero => simp
          | succ i => simp

/-- The power behaves as that of a base of at least one. -/
structure Rising (functions : Functions) (settings : Settings) : Prop where
  monotone : ∀ x y, 0 ≤ x → x ≤ y →
    functions.pow settings.lambda x ≤ functions.pow settings.lambda y
  one : functions.pow settings.lambda 0 = 1

/-- `path` returns a walk of `T` time steps, none of which leaves a vector. Each step has the sign
of its normal draw, and its size is the draw's times a volatility between `d0` and `d0` times
the largest power. -/
theorem path_bounded (counted : settings.Nc < 65535) (logs : functions.log settings.lambda ≠ 0)
    (room : 0 ≤ settings.nmax) (spread : 0 ≤ settings.d0) (rising : Rising functions settings) :
    ∃ row, path functions settings draws T = some row ∧ row.length = T ∧
      ∀ t < T, ∃ volatility,
        row.getD t 0 - (if t = 0 then 0 else row.getD (t - 1) 0) = volatility * draws.gaussian t ∧
        settings.d0 ≤ volatility ∧
        volatility ≤ settings.d0 * functions.pow settings.lambda settings.nmax := by
  obtain ⟨elements, looped, length, stepped⟩ := @turns_stepped functions settings draws T logs room
    { n := settings.Nc, nt := settings.n0, sum := 0 } le_rfl 0 T (Nat.zero_add T)
  refine ⟨cumsum 0 elements, ?_, by rw [cumsum_length, length], fun t inside => ?_⟩
  · rw [path, if_pos counted]
    exact Option.map_eq_some_iff.mpr ⟨elements, looped, rfl⟩
  · obtain ⟨nt, nonneg, below, element⟩ := (stepped t inside).volatility
    rw [Nat.zero_add] at element
    refine ⟨_, (cumsum_step 0 (length ▸ inside)).trans element, ?_, ?_⟩
    · have least := rising.monotone 0 nt le_rfl nonneg
      rw [rising.one] at least
      exact le_mul_of_one_le_right spread least
    · exact mul_le_mul_of_nonneg_left (rising.monotone nt _ nonneg below) spread

/-- The functions where the walk below asks for them: the logarithm of 2 as a double, and roots
and powers of whole numbers. -/
def wholeFunctions : Functions where
  log _ := 6243314768165359 / 2 ^ 53
  sqrt x := Nat.sqrt ⌊x⌋₊
  pow base x := base ^ ⌊x⌋₊

def wholeSettings : Settings where
  d0 := 1 / 2
  a0 := 0
  b := 0
  lambda := 2
  Nc := 0
  n0 := 0
  nmax := 1

def wholeDraws : Draws where
  event i := i % 2
  gaussian t := 1 - t

theorem whole_rising : Rising wholeFunctions wholeSettings where
  monotone x y _ order := by
    have floors : ⌊x⌋₊ ≤ ⌊y⌋₊ := Nat.floor_mono order
    exact pow_le_pow_right₀ (by norm_num [wholeSettings]) floors
  one := by norm_num [wholeFunctions]

theorem path_bounded_whole :
    ∃ row, path wholeFunctions wholeSettings wholeDraws 3 = some row ∧ row.length = 3 ∧
      ∃ volatility, row.getD 2 0 - row.getD 1 0 = volatility * (-1) ∧ 1 / 2 ≤ volatility ∧
        volatility ≤ 1 := by
  obtain ⟨row, walked, length, steps⟩ := @path_bounded wholeFunctions wholeSettings wholeDraws 3
    (by decide) (by norm_num [wholeFunctions, wholeSettings]) (by norm_num [wholeSettings])
    (by norm_num [wholeSettings]) whole_rising
  obtain ⟨volatility, step, least, most⟩ := steps 2 (by decide)
  refine ⟨row, walked, length, volatility, ?_, least, ?_⟩
  · have drawn : wholeDraws.gaussian 2 = -1 := by norm_num [wholeDraws]
    rw [if_neg (by decide), drawn] at step
    exact step
  · norm_num [wholeFunctions, wholeSettings] at most
    exact most

end MFRW

end RlAqs
