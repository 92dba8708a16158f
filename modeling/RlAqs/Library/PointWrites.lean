import Mathlib.Data.List.Nodup

/-!
A loop that writes to one key after another. What is read at a key that comes once is what its own
write leaves.
-/

namespace RlAqs

namespace PointWrites

variable {σ α β γ : Type*} [DecidableEq α]

/-- A write changes what is read at its key, and nothing else that is read. -/
def Local (read : σ → α → β) (write : σ → α → γ → σ) (change : β → γ → β) : Prop :=
  ∀ state key value other, read (write state key value) other =
    if other = key then change (read state other) value else read state other

def run (write : σ → α → γ → σ) (writes : List (α × γ)) (state : σ) : σ :=
  writes.foldl (fun state pair => write state pair.1 pair.2) state

omit [DecidableEq α] in
theorem run_kept {part : σ → β} {write : σ → α → γ → σ}
    (kept : ∀ state key value, part (write state key value) = part state)
    (writes : List (α × γ)) (state : σ) : part (run write writes state) = part state := by
  induction writes generalizing state with
  | nil => rfl
  | cons pair writes ih => exact (ih (write state pair.1 pair.2)).trans (kept state pair.1 pair.2)

variable {read : σ → α → β} {write : σ → α → γ → σ} {change : β → γ → β}

theorem run_other (law : Local read write change) (keys : List α) {other : α}
    (missing : other ∉ keys) (values : List γ) (state : σ) :
    read (run write (keys.zip values) state) other = read state other := by
  induction keys generalizing values state with
  | nil => rfl
  | cons key keys ih =>
      cases values with
      | nil => rfl
      | cons value values =>
          rw [List.mem_cons, not_or] at missing
          refine (ih missing.2 values (write state key value)).trans ?_
          rw [law, if_neg missing.1]

theorem run_keys (law : Local read write change) {keys : List α} (distinct : keys.Nodup)
    (values : List γ) (same : keys.length ≤ values.length) (state : σ) :
    keys.map (read (run write (keys.zip values) state)) =
      List.zipWith change (keys.map (read state)) values := by
  induction keys generalizing values state with
  | nil => rfl
  | cons key keys ih =>
      cases values with
      | nil => exact absurd same (Nat.not_succ_le_zero _)
      | cons value values =>
          obtain ⟨missing, distinct⟩ := List.nodup_cons.mp distinct
          have here := run_other law keys missing values (write state key value)
          have rest := ih distinct values (Nat.le_of_succ_le_succ same) (write state key value)
          have kept : keys.map (read (write state key value)) = keys.map (read state) := by
            refine List.map_congr_left fun other member => ?_
            rw [law, if_neg fun same : other = key => missing (same ▸ member)]
          rw [law, if_pos rfl] at here
          rw [kept] at rest
          exact List.cons_eq_cons.mpr ⟨here, rest⟩

omit [DecidableEq α] in
theorem foldl_eq_run (write : σ → α → γ → σ) (keys : List α) (value : α → γ) (state : σ) :
    keys.foldl (fun state key => write state key (value key)) state =
      run write (keys.zip (keys.map value)) state := by
  induction keys generalizing state with
  | nil => rfl
  | cons key keys ih => exact ih (write state key (value key))

theorem run_each (law : Local read write change) {keys : List α} (distinct : keys.Nodup)
    (value : α → γ) (state : σ) (key : α) :
    read (keys.foldl (fun state key => write state key (value key)) state) key =
      if key ∈ keys then change (read state key) (value key) else read state key := by
  rw [foldl_eq_run]
  split
  · rename_i member
    have all := run_keys law distinct (keys.map value) (Nat.le_of_eq (List.length_map _).symm) state
    rw [List.zipWith_map, List.zipWith_self] at all
    exact List.map_inj_left.mp all key member
  · exact run_other law keys ‹_› _ state

end PointWrites

end RlAqs
