import RlAqs.Sampling.LatinDesign
import RlAqs.Sampling.LatinSearchTried
import RlAqs.Sampling.LatinStrata

/-!
When the optimal sample ends. With `m` up to 8 the counter of 16 bits can hold the number of
candidates of a round, and from 9 on it cannot; the other loops are shorter.
-/

namespace RlAqs

namespace LHS

variable {tools : SearchTools} {m callFuel fuel pR : Nat} {pMin pMax : GslVector}

/-- The program comes out of all loops: with a matrix, an exception or an error of GSL. -/
def Ends : Except SamplingFault GslMatrix → Prop
  | .error .endless => False
  | .error .unreturned => False
  | .error .unfinished => False
  | _ => True

instance (outcome : Except SamplingFault GslMatrix) : Decidable (Ends outcome) := by
  unfold Ends
  split <;> infer_instance

theorem candidate_error {state : Search} {fault : SamplingFault}
    (failed : candidate tools m callFuel state = .error fault) : fault = .unreturned := by
  unfold candidate at failed
  split at failed
  · exact (Except.error.inj failed).symm
  · dsimp only at failed
    split at failed <;> cases failed

theorem candidateTurn_error {state : Search} {fault : SamplingFault}
    (failed : (candidate tools m callFuel state).map Counter.Turn.next = .error fault) :
    fault = .unreturned := by
  cases done : candidate tools m callFuel state with
  | error other =>
      rw [done] at failed
      obtain rfl : other = fault := Except.error.inj failed
      exact candidate_error done
  | ok next =>
      rw [done] at failed
      cases failed

theorem candidates_error {state : Search} {fault : SamplingFault}
    (failed : candidates tools m callFuel fuel state = .error fault) :
    fault = .unfinished ∨ fault = .unreturned := by
  rcases Counter.loop_error failed with rfl | ⟨_, _, turned⟩
  · exact .inl rfl
  · exact .inr (candidateTurn_error turned)

/-! Up to 8. -/

theorem size_le (short : m ≤ 8) : size m ≤ 128 :=
  Nat.pow_le_pow_right two_pos (by omega : m - 1 ≤ 7)

theorem permutations_lt (short : m ≤ 8) : permutations m < 65536 := by
  have bound := size_le short
  have product : size m * (size m + 1) ≤ 128 * 129 := Nat.mul_le_mul bound (by omega)
  exact (Nat.mod_le _ _).trans_lt (by omega)

theorem candidates_short (short : m ≤ 8) (enough : permutations m < fuel) {state : Search}
    {fault : SamplingFault} (failed : candidates tools m callFuel fuel state = .error fault) :
    fault = .unreturned := by
  rcases candidates_error failed with rfl | unreturned
  · refine absurd failed (Counter.loop_finishes (permutations_lt short) ?_ state enough
      (Nat.zero_le _))
    intro i state turned
    cases candidateTurn_error turned
  · exact unreturned

theorem round_short (short : m ≤ 8) (enough : permutations m < fuel) {state : Search}
    {fault : SamplingFault} (failed : round tools m callFuel fuel state = .error fault) :
    fault = .unreturned := by
  have narrow : size m < 65536 := (size_le short).trans_lt (by decide)
  unfold round at failed
  split at failed
  · rename_i other done
    obtain rfl := Except.error.inj failed
    exact candidates_short short enough done
  · split at failed
    · cases failed
    · simp [permutationVector, Simplex.indices, narrow] at failed

theorem search_short (short : m ≤ 8) (rounds : pR < 65536) (enough : permutations m < fuel)
    (more : pR < fuel) {fault : SamplingFault}
    (failed : search tools m callFuel fuel pR = .error fault) : fault = .unreturned := by
  have narrow : size m < 65536 := (size_le short).trans_lt (by decide)
  unfold search at failed
  simp only [permutationVector, Simplex.indices, if_pos narrow, Option.map_some] at failed
  rcases Counter.loop_error failed with rfl | ⟨_, _, turned⟩
  · refine absurd failed (Counter.loop_finishes rounds ?_ _ more (Nat.zero_le _))
    intro i state turned
    cases round_short short enough turned
  · exact round_short short enough turned

theorem sampleOptimal_short (some_sample : 2 ≤ m) (short : m ≤ 8) (sizes : pMin.size = pMax.size)
    (rounds : pR < 65536) (enough : permutations m < fuel) (more : pR < fuel)
    (returned : sampleOptimal tools m callFuel fuel pMin pMax pR ≠ .error .unreturned) :
    Ends (sampleOptimal tools m callFuel fuel pMin pMax pR) := by
  rw [sampleOptimal, if_neg (not_not.mpr sizes), if_neg (by omega), if_neg (by omega)] at returned ⊢
  cases ended : search tools m callFuel fuel pR with
  | error fault =>
      obtain rfl := search_short short rounds enough more ended
      rw [ended] at returned
      exact absurd rfl returned
  | ok state =>
      dsimp only
      cases built : design tools.garbage m state.best pMin pMax with
      | some mat => trivial
      | none =>
          by_cases long : 2 * m - 2 < pMin.size
          · simp only [if_pos long]
            trivial
          · obtain ⟨mat, found, _⟩ := design_get tools.garbage state.best some_sample
              (by omega : m ≤ 15) sizes (by omega)
            rw [built] at found
            cases found

/-! From 9 on. -/

theorem permutations_ge (long : 9 ≤ m) (bound : size m * (size m + 1) < 2 ^ 32) :
    65536 ≤ permutations m := by
  have many : 2 ^ 8 ≤ size m := Nat.pow_le_pow_right two_pos (by omega : 8 ≤ m - 1)
  have product : 256 * 257 ≤ size m * (size m + 1) := Nat.mul_le_mul many (by omega)
  rw [permutations, Nat.mod_eq_of_lt bound]
  omega

theorem candidates_long (tools : SearchTools) (callFuel fuel : Nat)
    (many : 65536 ≤ permutations m) (state : Search) :
    ∃ fault, candidates tools m callFuel fuel state = .error fault := by
  refine Counter.loop_endless (by decide) many ?_ (by decide) state
  intro i state turn turned
  obtain ⟨next, _, same⟩ := Counter.next_of_map turned
  exact ⟨next, same⟩

theorem round_long (tools : SearchTools) (callFuel fuel : Nat) (many : 65536 ≤ permutations m)
    (state : Search) :
    ∃ fault, round tools m callFuel fuel state = .error fault ∧
      (fault = .unfinished ∨ fault = .unreturned) := by
  obtain ⟨fault, failed⟩ := candidates_long tools callFuel fuel many state
  exact ⟨fault, by rw [round, failed], candidates_error failed⟩

theorem search_long (tools : SearchTools) (callFuel fuel : Nat) (many : 65536 ≤ permutations m)
    (some_round : 1 ≤ pR) :
    ∃ fault, search tools m callFuel fuel pR = .error fault ∧
      (fault = .endless ∨ fault = .unfinished ∨ fault = .unreturned) := by
  unfold search
  dsimp only
  split
  · exact ⟨_, rfl, .inl rfl⟩
  rename_i e filled
  cases fuel with
  | zero => exact ⟨_, rfl, .inr (.inl rfl)⟩
  | succ fuel =>
      obtain ⟨fault, failed, kind⟩ := round_long tools callFuel (fuel + 1) many _
      refine ⟨fault, ?_, .inr kind⟩
      rw [Counter.loop, if_pos (by omega : 0 < pR), failed]

theorem sampleOptimal_long (many : 65536 ≤ permutations m) (some_sample : 2 ≤ m) (bound : m < 31)
    (sizes : pMin.size = pMax.size) (some_round : 1 ≤ pR) :
    ¬Ends (sampleOptimal tools m callFuel fuel pMin pMax pR) := by
  rw [sampleOptimal, if_neg (not_not.mpr sizes), if_neg (by omega), if_neg (by omega)]
  obtain ⟨fault, failed, rfl | rfl | rfl⟩ := search_long tools callFuel fuel many some_round
  all_goals
    rw [failed]
    exact id

/-- On a stream on which every call of `uniqueInts` returns, the optimal sample ends exactly when
`m` is at most 8, or the bounds are refused. -/
theorem sampleOptimal_ends_iff (some_sample : 2 ≤ m) (bound : size m * (size m + 1) < 2 ^ 32)
    (some_round : 1 ≤ pR) (rounds : pR < 65536)
    (returns : ∀ fuel, ∃ callFuel,
      sampleOptimal tools m callFuel fuel pMin pMax pR ≠ .error .unreturned) :
    (∃ callFuel fuel, Ends (sampleOptimal tools m callFuel fuel pMin pMax pR)) ↔
      m ≤ 8 ∨ pMin.size ≠ pMax.size := by
  constructor
  · rintro ⟨callFuel, fuel, ends⟩
    by_contra neither
    simp only [not_or, not_le, not_not] at neither
    obtain ⟨long, sizes⟩ := neither
    have below : m < 31 := by
      by_contra large
      have many : 2 ^ 30 ≤ size m := Nat.pow_le_pow_right two_pos (by omega : 30 ≤ m - 1)
      have product : 2 ^ 30 * 2 ^ 30 ≤ size m * (size m + 1) := Nat.mul_le_mul many (by omega)
      omega
    exact sampleOptimal_long (permutations_ge long bound) some_sample below sizes some_round ends
  · intro either
    by_cases sizes : pMin.size = pMax.size
    · have short : m ≤ 8 := either.resolve_right (not_not.mpr sizes)
      obtain ⟨callFuel, returned⟩ := returns (permutations m + pR + 1)
      exact ⟨callFuel, _, sampleOptimal_short some_sample short sizes rounds (by omega) (by omega)
        returned⟩
    · refine ⟨0, 0, ?_⟩
      rw [sampleOptimal, if_pos sizes]
      trivial

/-! A generator that draws the same integer all the time. -/

theorem candidate_returns (ints : ∀ position, tools.ints position = 0) (state : Search) :
    ∃ next, candidate tools m 1 state = .ok next := by
  have drawn : uniqueInts tools.ints (size m) 1 state.position =
      some (0, 0, state.position + 1 + 1) := by
    simp [uniqueInts, secondInt, ints]
  unfold candidate
  rw [drawn]
  dsimp only
  split <;> exact ⟨_, rfl⟩

theorem sampleOptimal_returns
    (returns : ∀ state, ∃ next, candidate tools m callFuel state = .ok next) :
    sampleOptimal tools m callFuel fuel pMin pMax pR ≠ .error .unreturned := by
  have candidateTurn (state : Search) :
      (candidate tools m callFuel state).map Counter.Turn.next ≠ .error .unreturned := by
    obtain ⟨next, done⟩ := returns state
    rw [done]
    rintro ⟨⟩
  have candidatesTurn (state : Search) :
      candidates tools m callFuel fuel state ≠ .error .unreturned := by
    intro failed
    rcases Counter.loop_error failed with same | ⟨_, state, turned⟩
    · cases same
    · exact candidateTurn state turned
  have roundTurn (state : Search) : round tools m callFuel fuel state ≠ .error .unreturned := by
    unfold round
    split
    · rename_i fault done
      intro same
      obtain rfl := Except.error.inj same
      exact candidatesTurn state done
    · split
      · rintro ⟨⟩
      · split <;> rintro ⟨⟩
  have searched : search tools m callFuel fuel pR ≠ .error .unreturned := by
    unfold search
    dsimp only
    split
    · rintro ⟨⟩
    · intro failed
      rcases Counter.loop_error failed with same | ⟨_, state, turned⟩
      · cases same
      · exact roundTurn state turned
  unfold sampleOptimal
  split
  · rintro ⟨⟩
  split
  · rintro ⟨⟩
  split
  · rintro ⟨⟩
  split
  · rename_i fault done
    intro same
    obtain rfl := Except.error.inj same
    exact searched done
  · split
    · rintro ⟨⟩
    · split <;> rintro ⟨⟩

theorem sampleOptimal_ends_iff_plain :
    (∃ callFuel fuel,
        Ends (sampleOptimal plainTools 2 callFuel fuel (lowest 1) (highest 1) 1)) ↔
      (2 ≤ 8 ∨ (lowest 1).size ≠ (highest 1).size) :=
  sampleOptimal_ends_iff le_rfl (by decide) le_rfl (by decide) fun _ =>
    ⟨1, sampleOptimal_returns (candidate_returns fun _ => rfl)⟩

theorem sampleOptimal_endless :
    ¬∀ (tools : SearchTools) (m pR : Nat) (pMin pMax : GslVector), 2 ≤ m →
      size m * (size m + 1) < 2 ^ 32 → 1 ≤ pR → pR < 65536 →
      (∀ fuel, ∃ callFuel,
        sampleOptimal tools m callFuel fuel pMin pMax pR ≠ .error .unreturned) →
      ∃ callFuel fuel, Ends (sampleOptimal tools m callFuel fuel pMin pMax pR) := by
  intro always
  obtain ⟨callFuel, fuel, ends⟩ := always plainTools 9 1 (lowest 1) (highest 1) (by decide)
    (by decide) le_rfl (by decide) fun _ =>
      ⟨1, sampleOptimal_returns (candidate_returns fun _ => rfl)⟩
  have many : 65536 ≤ permutations 9 := permutations_ge (by decide) (by decide)
  have sizes : (lowest 1).size = (highest 1).size := rfl
  exact sampleOptimal_long many (by decide) (by decide) sizes le_rfl ends

end LHS

end RlAqs
