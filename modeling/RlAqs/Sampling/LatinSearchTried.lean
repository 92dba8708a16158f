import RlAqs.Sampling.LatinSearchCore

/-!
What the search tries. `uniqueInts` returns once its two integers are the same, so no candidate
has two entries exchanged. The best of the designs that are evaluated is kept all the same.
-/

namespace RlAqs

namespace LHS

variable {tools : SearchTools} {m callFuel fuel pR : Nat}

theorem secondInt_eq {ints : Nat → Nat} {maxVal r1 position r2 after : Nat}
    (returned : secondInt ints maxVal r1 callFuel position = some (r2, after)) : r1 = r2 := by
  induction callFuel generalizing position with
  | zero => cases returned
  | succ callFuel ih =>
      rw [secondInt] at returned
      split at returned
      · exact ih returned
      · rename_i same
        rw [not_not] at same
        rw [same, (Prod.mk.inj (Option.some.inj returned)).1]

theorem uniqueInts_eq {ints : Nat → Nat} {maxVal position r1 r2 after : Nat}
    (returned : uniqueInts ints maxVal callFuel position = some (r1, r2, after)) : r1 = r2 := by
  rw [uniqueInts, Option.map_eq_some_iff] at returned
  obtain ⟨⟨second, _⟩, found, same⟩ := returned
  obtain ⟨rfl, rfl, _⟩ : _ = r1 ∧ second = r2 ∧ _ = after := by simpa using same
  exact secondInt_eq found

structure Tracked (tools : SearchTools) (m : Nat) (start : GslVector) (state : Search) : Prop where
  alike : ∀ tried ∈ state.tried, tried.r1 = tried.r2
  exchanged : ∀ tried ∈ state.tried, tried.e1 = exchange tried.e tried.r1 tried.r2
  unmoved : ∀ tried ∈ state.tried, tried.evaluated = tried.e
  kept : state.minDist = minDistance tools m state.best
  start : minDistance tools m start ≤ state.minDist
  best : ∀ tried ∈ state.tried, minDistance tools m tried.evaluated ≤ state.minDist

theorem candidate_cases {state next : Search}
    (done : candidate tools m callFuel state = .ok next) :
    ∃ r1 r2 position, uniqueInts tools.ints (size m) callFuel state.position =
        some (r1, r2, position) ∧
      next.tried = ⟨r1, r2, state.e, exchange state.e r1 r2, state.e,
        minDistance tools m state.e⟩ :: state.tried ∧
      ((minDistance tools m state.e > state.minDist ∧ next.best = state.e ∧
          next.minDist = minDistance tools m state.e) ∨
        (minDistance tools m state.e ≤ state.minDist ∧ next.best = state.best ∧
          next.minDist = state.minDist)) := by
  unfold candidate at done
  split at done
  · cases done
  rename_i r1 r2 position returned
  dsimp only at done
  split at done
  · rename_i better
    obtain rfl := Except.ok.inj done
    exact ⟨r1, r2, position, returned, rfl, .inl ⟨better, rfl, rfl⟩⟩
  · rename_i worse
    obtain rfl := Except.ok.inj done
    exact ⟨r1, r2, position, returned, rfl, .inr ⟨not_lt.mp worse, rfl, rfl⟩⟩

theorem Tracked.candidate {start : GslVector} {state next : Search}
    (tracked : Tracked tools m start state)
    (done : candidate tools m callFuel state = .ok next) : Tracked tools m start next := by
  obtain ⟨r1, r2, position, returned, tried, kept⟩ := candidate_cases done
  have alike := uniqueInts_eq returned
  have grown : state.minDist ≤ next.minDist ∧ minDistance tools m state.e ≤ next.minDist := by
    rcases kept with ⟨better, _, same⟩ | ⟨worse, _, same⟩
    · exact ⟨same ▸ better.le, same.ge⟩
    · exact ⟨same.ge, same ▸ worse⟩
  constructor
  · rw [tried, List.forall_mem_cons]
    exact ⟨alike, tracked.alike⟩
  · rw [tried, List.forall_mem_cons]
    exact ⟨rfl, tracked.exchanged⟩
  · rw [tried, List.forall_mem_cons]
    exact ⟨rfl, tracked.unmoved⟩
  · rcases kept with ⟨_, best, same⟩ | ⟨_, best, same⟩
    · rw [same, best]
    · rw [same, best, tracked.kept]
  · exact tracked.start.trans grown.1
  · rw [tried, List.forall_mem_cons]
    exact ⟨grown.2, fun earlier member => (tracked.best earlier member).trans grown.1⟩

theorem candidate_of_turn {state : Search} {turn : Counter.Turn Search}
    (turned : (candidate tools m callFuel state).map Counter.Turn.next = .ok turn) :
    candidate tools m callFuel state = .ok turn.state := by
  obtain ⟨next, done, rfl⟩ := Counter.next_of_map turned
  exact done

theorem Tracked.candidates {start : GslVector} {state next : Search}
    (tracked : Tracked tools m start state)
    (done : candidates tools m callFuel fuel state = .ok next) : Tracked tools m start next :=
  Counter.loop_invariant (Tracked tools m start)
    (fun _ _ _ tracked turned => tracked.candidate (candidate_of_turn turned)) tracked done

theorem candidates_tried {state next : Search} (some_candidate : 0 < permutations m)
    (done : candidates tools m callFuel fuel state = .ok next) : next.tried ≠ [] := by
  refine Counter.loop_established (fun state => state.tried ≠ []) some_candidate ?_ done
  intro i state turn turned
  obtain ⟨_, _, _, _, tried, _⟩ := candidate_cases (candidate_of_turn turned)
  rw [tried]
  exact List.cons_ne_nil _ _

/-- A round is the loop over its candidates; only the vector may change after it. -/
theorem round_cases {state : Search} {turn : Counter.Turn Search}
    (turned : round tools m callFuel fuel state = .ok turn) :
    ∃ tried, candidates tools m callFuel fuel state = .ok tried ∧
      turn.state.tried = tried.tried ∧ turn.state.best = tried.best ∧
      turn.state.minDist = tried.minDist := by
  unfold round at turned
  cases done : LHS.candidates tools m callFuel fuel state with
  | error fault =>
      rw [done] at turned
      cases turned
  | ok tried =>
      rw [done] at turned
      refine ⟨tried, rfl, ?_⟩
      dsimp only at turned
      split at turned
      · obtain rfl := Except.ok.inj turned
        exact ⟨rfl, rfl, rfl⟩
      split at turned
      · cases turned
      · obtain rfl := Except.ok.inj turned
        exact ⟨rfl, rfl, rfl⟩

theorem Tracked.round {start : GslVector} {state : Search} {turn : Counter.Turn Search}
    (tracked : Tracked tools m start state)
    (turned : round tools m callFuel fuel state = .ok turn) : Tracked tools m start turn.state := by
  obtain ⟨tried, done, same, best, minDist⟩ := round_cases turned
  have later := tracked.candidates done
  constructor
  · exact same ▸ later.alike
  · exact same ▸ later.exchanged
  · exact same ▸ later.unmoved
  · rw [minDist, best]
    exact later.kept
  · exact minDist ▸ later.start
  · rw [same, minDist]
    exact later.best

def firstVector (tools : SearchTools) (m : Nat) : GslVector :=
  ⟨size m, fun i => (tools.shuffle (List.range (size m))).getD i 0 + 1⟩

theorem permutationVector_eq {count : Nat} {permutation : List Nat} {e : GslVector}
    (filled : permutationVector count permutation = some e) :
    count < 65536 ∧ e = ⟨count, fun i => permutation.getD i 0 + 1⟩ := by
  unfold permutationVector Simplex.indices at filled
  split at filled
  · exact ⟨by assumption, (Option.some.inj filled).symm⟩
  · cases filled

theorem permutations_pos (bound : size m < 65536) : 0 < permutations m := by
  have positive : 0 < size m := Nat.two_pow_pos _
  have product : size m * (size m + 1) ≤ 65535 * 65536 :=
    Nat.mul_le_mul (by omega) (by omega)
  rw [permutations, Nat.mod_eq_of_lt (by omega)]
  exact Nat.mul_pos positive (Nat.succ_pos _)

theorem search_tracked (some_round : 1 ≤ pR) {state : Search}
    (ended : search tools m callFuel fuel pR = .ok state) :
    Tracked tools m (firstVector tools m) state ∧ state.tried ≠ [] := by
  unfold search at ended
  dsimp only at ended
  split at ended
  · cases ended
  rename_i e filled
  obtain ⟨bound, rfl⟩ := permutationVector_eq filled
  constructor
  · refine Counter.loop_invariant (Tracked tools m (firstVector tools m))
      (fun _ _ _ tracked turned => tracked.round turned) ?_ ended
    exact ⟨by simp, by simp, by simp, rfl, le_rfl, by simp⟩
  · refine Counter.loop_established (fun state => state.tried ≠ []) some_round ?_ ended
    intro i state turn turned
    obtain ⟨tried, done, same, _⟩ := round_cases turned
    rw [same]
    exact candidates_tried (permutations_pos bound) done

/-- The two indices of every candidate differ, the design that is evaluated is that of the vector
with the two entries exchanged, and no design tried is better than the one returned. -/
structure FindsBest (tools : SearchTools) (m : Nat) (state : Search) : Prop where
  different : ∀ tried ∈ state.tried, tried.r1 ≠ tried.r2
  exchanged : ∀ tried ∈ state.tried, tried.e1 = exchange tried.e tried.r1 tried.r2
  evaluated : ∀ tried ∈ state.tried, tried.evaluated = tried.e1
  start : minDistance tools m (firstVector tools m) ≤ minDistance tools m state.best
  best : ∀ tried ∈ state.tried, minDistance tools m tried.e1 ≤ minDistance tools m state.best

/-- No search does: every candidate has twice the same index. -/
theorem search_never_finds (some_round : 1 ≤ pR) {state : Search}
    (ended : search tools m callFuel fuel pR = .ok state) : ¬FindsBest tools m state := by
  obtain ⟨tracked, some_tried⟩ := search_tracked some_round ended
  intro finds
  obtain ⟨tried, member⟩ := List.exists_mem_of_ne_nil _ some_tried
  exact finds.different tried member (tracked.alike tried member)

/-- A generator that draws zeros and shuffles nothing. With vectors of two entries the squares sum
up to 2, and there is one permutation after the first. -/
def plainTools : SearchTools where
  garbage := ⟨0, 0, fun _ _ => 0⟩
  sqrt := fun x => if x = (2 : Nat) then (6369051672525773 : Nat) / (4503599627370496 : Nat) else x
  next := fun permutation => if permutation = [0, 1] then some [1, 0] else none
  shuffle := fun data => data
  shuffle_perm := fun data => List.Perm.refl data
  ints := fun _ => 0

theorem plainSearch : ∃ state, search plainTools 2 1 7 1 = .ok state := by
  have checked : (search plainTools 2 1 7 1).isOk = true := by decide +kernel
  cases ended : search plainTools 2 1 7 1 with
  | error fault =>
      rw [ended] at checked
      cases checked
  | ok state => exact ⟨state, rfl⟩

theorem search_never_finds_plain :
    ∃ state, search plainTools 2 1 7 1 = .ok state ∧ ¬FindsBest plainTools 2 state := by
  obtain ⟨state, ended⟩ := plainSearch
  exact ⟨state, ended, search_never_finds le_rfl ended⟩

theorem search_not_best :
    ¬∀ (tools : SearchTools) (m callFuel fuel pR : Nat) (state : Search), 2 ≤ m → 1 ≤ pR →
      search tools m callFuel fuel pR = .ok state → FindsBest tools m state := by
  intro always
  obtain ⟨state, ended⟩ := plainSearch
  obtain ⟨tracked, some_tried⟩ := search_tracked le_rfl ended
  have finds := always plainTools 2 1 7 1 state le_rfl le_rfl ended
  obtain ⟨tried, member⟩ := List.exists_mem_of_ne_nil _ some_tried
  exact finds.different tried member (tracked.alike tried member)

end LHS

end RlAqs
