import RlAqs.Neural.LineSearchCore
import Mathlib.Algebra.Order.Ring.Rat
import Mathlib.Tactic.NormNum
import Mathlib.Tactic.Positivity

/-!
The line search never picks a worse step than those it starts from: points and values stay
paired, and the best value never rises. It never divides by zero.
-/

namespace RlAqs.ConjugateGradient

variable {K : Type*} [Field K] [LinearOrder K] {f : K → K}

theorem sign_ne_zero {a : K} (nonzero : a ≠ 0) (b : K) : sign a b ≠ 0 := by
  unfold sign
  split_ifs
  · exact nonzero
  · exact neg_ne_zero.mpr nonzero
  · exact neg_ne_zero.mpr nonzero
  · exact nonzero

theorem quotient_of_ne {a b : K} (nonzero : b ≠ 0) : quotient a b = .ok (a / b) :=
  if_neg nonzero

/-! Bracketing. -/

namespace Bracket

variable {s : Bracket K}

structure Paired (f : K → K) (s : Bracket K) : Prop where
  fa : s.fa = f s.ax
  fb : s.fb = f s.bx
  fc : s.fc = f s.cx

omit [Field K] [LinearOrder K] in
theorem Paired.shift (paired : s.Paired f) (u : K) : (s.shift u (f u)).Paired f :=
  ⟨paired.fb, paired.fc, rfl⟩

theorem start_paired (f : K → K) (trainingRate : K) : (start f trainingRate (f 0)).Paired f := by
  simp only [start]
  split_ifs
  · exact ⟨rfl, rfl, rfl⟩
  · exact ⟨rfl, rfl, rfl⟩

theorem start_best (f : K → K) (trainingRate error : K) :
    (start f trainingRate error).fb ≤ min error (f trainingRate) := by
  simp only [start]
  split_ifs with worse
  · exact le_min le_rfl worse.le
  · exact le_min (not_lt.mp worse) le_rfl

theorem Paired.advance (paired : s.Paired f) (u : K) : (s.advance f u).state.Paired f := by
  simp only [Bracket.advance]
  split_ifs
  · exact ⟨paired.fb, rfl, paired.fc⟩
  · exact ⟨paired.fa, paired.fb, rfl⟩
  · exact paired.shift _
  · exact Paired.shift (s := { s with bx := s.cx, cx := u, fb := s.fc, fc := f u })
      ⟨paired.fa, paired.fc, rfl⟩ _
  · exact paired.shift u
  · exact paired.shift _
  · exact paired.shift _

theorem advance_le (falls : s.fc < s.fb) (u : K) : (s.advance f u).state.fb ≤ s.fb := by
  simp only [Bracket.advance]
  split_ifs with between better
  · exact (better.trans falls).le
  · exact le_rfl
  · exact falls.le
  · rename_i beyond better
    exact (better.trans falls).le
  · exact falls.le
  · exact falls.le
  · exact falls.le

section

variable [IsStrictOrderedRing K]

theorem tiny_pos : (0 : K) < tiny := by
  unfold tiny
  positivity

theorem extrapolate_divides (s : Bracket K) : ∃ u, s.extrapolate = .ok u := by
  have nonzero : 2.0 * sign (max |(s.bx - s.cx) * (s.fb - s.fa) - (s.bx - s.ax) * (s.fb - s.fc)| tiny)
      ((s.bx - s.cx) * (s.fb - s.fa) - (s.bx - s.ax) * (s.fb - s.fc)) ≠ 0 :=
    mul_ne_zero (by norm_num) (sign_ne_zero (lt_max_of_lt_right tiny_pos).ne' _)
  simp only [extrapolate, quotient_of_ne nonzero]
  exact ⟨_, rfl⟩

theorem search_best {fuel : Nat} {final : Bracket K} (paired : s.Paired f)
    (found : s.search f fuel = .ok final) : final.Paired f ∧ final.fb ≤ s.fb := by
  induction fuel generalizing s with
  | zero => cases found
  | succ fuel ih =>
      rw [search] at found
      split at found
      · rename_i falls
        obtain ⟨u, extrapolated⟩ := s.extrapolate_divides
        have kept := paired.advance u
        have lower := advance_le (f := f) falls u
        rw [extrapolated, Except.bind] at found
        cases turned : s.advance f u with
        | leave next =>
            rw [turned] at found kept lower
            obtain rfl := Except.ok.inj found
            exact ⟨kept, lower⟩
        | next next =>
            rw [turned] at found kept lower
            obtain ⟨final_paired, best⟩ := ih kept found
            exact ⟨final_paired, best.trans lower⟩
      · obtain rfl := Except.ok.inj found
        exact ⟨paired, le_rfl⟩

theorem search_divides {fuel : Nat} : s.search f fuel ≠ .error .divisionByZero := by
  induction fuel generalizing s with
  | zero => nofun
  | succ fuel ih =>
      rw [search]
      split
      · obtain ⟨u, extrapolated⟩ := s.extrapolate_divides
        rw [extrapolated, Except.bind]
        split
        · nofun
        · exact ih
      · nofun

end

end Bracket

/-! Brent's method. -/

namespace Brent

variable {s : Brent K}

structure Paired (f : K → K) (s : Brent K) : Prop where
  fv : s.fv = f s.v
  fw : s.fw = f s.w
  fx : s.fx = f s.x

omit [Field K] in
theorem Paired.boundWorse (paired : s.Paired f) (u : K) :
    (s.boundWorse u).Paired f ∧ (s.boundWorse u).fx = s.fx := by
  unfold Brent.boundWorse
  split_ifs
  · exact ⟨⟨paired.fv, paired.fw, paired.fx⟩, rfl⟩
  · exact ⟨⟨paired.fv, paired.fw, paired.fx⟩, rfl⟩

omit [Field K] in
/-- The best point only ever gives way to one that is no worse. -/
theorem Paired.accept (paired : s.Paired f) (u : K) :
    (s.accept u (f u)).Paired f ∧ (s.accept u (f u)).fx ≤ s.fx := by
  obtain ⟨bounded, best⟩ := paired.boundWorse u
  simp only [Brent.accept]
  split_ifs with better
  · exact ⟨⟨paired.fw, paired.fx, rfl⟩, better⟩
  · exact ⟨⟨bounded.fw, rfl, bounded.fx⟩, best.le⟩
  · exact ⟨⟨rfl, bounded.fw, bounded.fx⟩, best.le⟩
  · exact ⟨bounded, best.le⟩

theorem turn_cases {turn : Counter.Turn (Brent K)} (turned : s.turn f = .ok turn) :
    turn = .leave s ∨ ∃ d e u, turn = .next ({ s with d := d, e := e }.accept u (f u)) := by
  simp only [Brent.turn] at turned
  split at turned
  · exact .inl (Except.ok.inj turned).symm
  · right
    generalize (if |s.e| > tol * |s.x| + zeps then _ else _ : Except SearchFault (K × K)) = moved
      at turned
    cases moved with
    | error fault => cases turned
    | ok moved => exact ⟨moved.1, moved.2, _, (Except.ok.inj turned).symm⟩

theorem Paired.turn {turn : Counter.Turn (Brent K)} (paired : s.Paired f)
    (turned : s.turn f = .ok turn) : turn.state.Paired f ∧ turn.state.fx ≤ s.fx := by
  rcases turn_cases turned with rfl | ⟨d, e, u, rfl⟩
  · exact ⟨paired, le_rfl⟩
  · exact Paired.accept (s := { s with d := d, e := e }) ⟨paired.fv, paired.fw, paired.fx⟩ u

theorem search_best {x : K} (paired : s.Paired f) (found : s.search f = .ok x) : f x ≤ s.fx := by
  unfold Brent.search at found
  cases narrowed : Counter.loop SearchFault.unfinished 65536 itmax (fun _ s => s.turn f) (itmax + 1)
      0 s with
  | error fault =>
      rw [narrowed] at found
      cases found
  | ok final =>
      rw [narrowed] at found
      obtain rfl := Except.ok.inj found
      have kept := Counter.loop_invariant (fun next : Brent K => next.Paired f ∧ next.fx ≤ s.fx)
        (fun _ next turn holds turned => by
          obtain ⟨paired', lower⟩ := holds.1.turn turned
          exact ⟨paired', lower.trans holds.2⟩) ⟨paired, le_rfl⟩ narrowed
      rw [← kept.1.fx]
      exact kept.2

section

variable [IsStrictOrderedRing K]

/-- Where the parabola is used at all, its denominator is not zero. -/
theorem parabolic_divides (s : Brent K) (xm tol1 tol2 : K) :
    ∃ moved, s.parabolic xm tol1 tol2 = .ok moved := by
  simp only [parabolic]
  split
  · exact ⟨_, rfl⟩
  · rename_i acceptable
    have nonzero : s.parabola.2 ≠ 0 := by
      intro zero
      refine acceptable (.inl ?_)
      rw [zero, mul_zero, zero_mul, abs_zero]
      exact abs_nonneg _
    rw [quotient_of_ne nonzero]
    exact ⟨_, rfl⟩

theorem turn_divides (s : Brent K) : ∃ turn, s.turn f = .ok turn := by
  simp only [Brent.turn]
  split
  · exact ⟨_, rfl⟩
  · split
    · obtain ⟨moved, parabola⟩ := s.parabolic_divides (0.5 * (s.a + s.b)) (tol * |s.x| + zeps)
        (2.0 * (tol * |s.x| + zeps))
      rw [parabola]
      exact ⟨_, rfl⟩
    · exact ⟨_, rfl⟩

/-- The narrowing comes to its end, by its tolerance or by the limit on its turns. -/
theorem search_returns (s : Brent K) : ∃ x, s.search f = .ok x := by
  unfold Brent.search
  cases narrowed : Counter.loop SearchFault.unfinished 65536 itmax (fun _ s => s.turn f) (itmax + 1)
      0 s with
  | ok final => exact ⟨final.x, rfl⟩
  | error fault =>
      rcases Counter.loop_error narrowed with rfl | ⟨_, next, failed⟩
      · refine absurd narrowed (Counter.loop_finishes (by decide) (fun _ next failed => ?_) s
          (Nat.lt_succ_self _) (Nat.zero_le _))
        obtain ⟨turn, turned⟩ := next.turn_divides (f := f)
        cases turned.symm.trans failed
      · obtain ⟨turn, turned⟩ := next.turn_divides (f := f)
        cases turned.symm.trans failed

end

end Brent

/-! The search. -/

variable [IsStrictOrderedRing K]

/-- A step that is returned is no worse than no step and than the one tried first, and no divisor
is ever zero. -/
theorem getOptimalTrainingRate_best (f : K → K) (trainingRate : K) (fuel : Nat) :
    (∀ x, getOptimalTrainingRate f trainingRate (f 0) fuel = .ok x →
      f x ≤ min (f 0) (f trainingRate)) ∧
    getOptimalTrainingRate f trainingRate (f 0) fuel ≠ .error .divisionByZero := by
  unfold getOptimalTrainingRate
  cases bracketed : (Bracket.start f trainingRate (f 0)).search f fuel with
  | error fault =>
      refine ⟨nofun, fun failed => ?_⟩
      obtain rfl := Except.error.inj failed
      exact Bracket.search_divides bracketed
  | ok bracket =>
      obtain ⟨paired, lower⟩ := Bracket.search_best (Bracket.start_paired f trainingRate) bracketed
      have bound := lower.trans (Bracket.start_best f trainingRate (f 0))
      rw [paired.fb] at bound
      refine ⟨fun x found => ?_, fun failed => ?_⟩
      · have best := Brent.search_best (s := Brent.start f bracket) ⟨rfl, rfl, rfl⟩ found
        exact best.trans bound
      · obtain ⟨x, found⟩ := (Brent.start f bracket).search_returns (f := f)
        cases found.symm.trans failed

def parabola (x : ℚ) : ℚ := (x - 1) * (x - 1)

theorem getOptimalTrainingRate_parabola :
    ∃ x, getOptimalTrainingRate parabola 3 (parabola 0) 20 = .ok x ∧ parabola x ≤ 1 := by
  have returned : (getOptimalTrainingRate parabola 3 (parabola 0) 20).isOk = true := by
    decide +kernel
  cases found : getOptimalTrainingRate parabola 3 (parabola 0) 20 with
  | error fault =>
      rw [found] at returned
      cases returned
  | ok x =>
      have best := (getOptimalTrainingRate_best parabola 3 20).1 x found
      exact ⟨x, rfl, best.trans (min_le_of_left_le (by norm_num [parabola]))⟩

end RlAqs.ConjugateGradient
