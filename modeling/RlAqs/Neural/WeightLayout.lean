import RlAqs.Library.PointWrites
import RlAqs.Neural.FeedforwardCore

/-!
The loops over all weights: they store and read them in one order, and stay inside their arrays as
long as 16 bits hold the number of weights.
-/

namespace RlAqs

namespace Shape

variable {K σ : Type*}

/-- The loop writes behind what it has written, over what the array held before. -/
theorem collectFrom_eq (value : Weight → K) (layout : List Weight) :
    ∀ done rest : List K, done.length + rest.length < 65536 →
      collectFrom value layout done.length (done ++ rest) =
        if layout.length ≤ rest.length then
          some (done ++ layout.map value ++ rest.drop layout.length)
        else none := by
  induction layout with
  | nil =>
      intro done rest _
      simp [collectFrom]
  | cons weight layout ih =>
      intro done rest few
      cases rest with
      | nil => simp [collectFrom]
      | cons old rest =>
          rw [List.length_cons] at few
          have next := ih (done ++ [value weight]) rest (by
            rw [List.length_append, List.length_singleton]
            omega)
          have written : (done ++ old :: rest).set done.length (value weight) =
              (done ++ [value weight]) ++ rest := by
            rw [List.set_append_right _ _ le_rfl, Nat.sub_self, List.set_cons_zero,
              List.append_assoc, List.singleton_append]
          have index : (done.length + 1) % 65536 = (done ++ [value weight]).length := by
            rw [List.length_append, List.length_singleton]
            omega
          have inside : done.length < (done ++ old :: rest).length := by simp
          rw [collectFrom, if_pos inside, written, index, next]
          simp

theorem collect_eq [Zero K] (shape : Shape) (value : Weight → K) :
    shape.collect value =
      if shape.free < 65536 then some (shape.layout.map value) else none := by
  have wrapped := shape.getNumFree_eq
  have stored := collectFrom_eq value shape.layout [] (List.replicate shape.getNumFree 0) (by
    rw [List.length_nil, List.length_replicate]
    omega)
  rw [List.length_nil, List.nil_append, List.length_replicate, shape.layout_length] at stored
  rw [collect, stored]
  by_cases few : shape.free < 65536
  · rw [if_pos few, if_pos (by omega), List.drop_of_length_le (by simp; omega)]
    simp
  · rw [if_neg few, if_neg (by omega)]

theorem distributeFrom_eq (write : σ → Weight → K → σ) (layout : List Weight) :
    ∀ (done values : List K) (state : σ), done.length + layout.length < 65536 →
      distributeFrom write (done ++ values) layout done.length state =
        if layout.length ≤ values.length then
          some (PointWrites.run write (layout.zip values) state)
        else none := by
  induction layout with
  | nil =>
      intro done values state few
      simp [distributeFrom, PointWrites.run]
  | cons weight layout ih =>
      intro done values state few
      cases values with
      | nil => simp [distributeFrom]
      | cons value values =>
          rw [List.length_cons] at few
          have next := ih (done ++ [value]) values (write state weight value) (by
            rw [List.length_append, List.length_singleton]
            omega)
          have index : (done.length + 1) % 65536 = (done ++ [value]).length := by
            rw [List.length_append, List.length_singleton]
            omega
          have found : (done ++ value :: values)[done.length]? = some value := by simp
          have inside : (weight :: layout).length ≤ (value :: values).length ↔
              layout.length ≤ values.length := Nat.succ_le_succ_iff
          rw [distributeFrom, found, index, List.append_cons]
          simp only [inside]
          exact next

theorem distribute_eq (shape : Shape) (few : shape.free < 65536) (write : σ → Weight → K → σ)
    (values : List K) (state : σ) :
    shape.distribute write values state =
      if shape.free ≤ values.length then
        some (PointWrites.run write (shape.layout.zip values) state)
      else none := by
  rw [← shape.layout_length] at few ⊢
  exact distributeFrom_eq write shape.layout [] values state (by simpa using few)

theorem mem_layout_inputHidden (shape : Shape) {i j : Nat} :
    .inputHidden i j ∈ shape.layout ↔ i < shape.numInputs + 1 ∧ j < shape.numHidden := by
  simp [Shape.layout, and_comm]

theorem mem_layout_hiddenOutput (shape : Shape) {j k : Nat} :
    .hiddenOutput j k ∈ shape.layout ↔ j < shape.numHidden + 1 ∧ k < shape.numOutputs := by
  simp [Shape.layout, and_comm]

theorem nested_nodup (link : Nat → Nat → Weight)
    (apart : ∀ a b c d, link a b = link c d → a = c ∧ b = d) (inner outer : Nat) :
    ((List.range outer).flatMap fun j => (List.range inner).map fun i => link i j).Nodup := by
  rw [List.nodup_flatMap]
  constructor
  · intro j _
    exact List.nodup_range.map fun a b same => (apart a j b j same).1
  · refine List.nodup_range.imp fun {j other} different => ?_
    rw [Function.onFun, List.disjoint_left]
    intro weight first second
    obtain ⟨a, _, rfl⟩ := List.mem_map.mp first
    obtain ⟨b, _, same⟩ := List.mem_map.mp second
    exact different (apart b other a j same).2.symm

theorem nested_append_nodup {first second : Nat → Nat → Weight}
    (apart : ∀ a b c d, first a b = first c d → a = c ∧ b = d)
    (apart' : ∀ a b c d, second a b = second c d → a = c ∧ b = d)
    (differ : ∀ a b c d, first a b ≠ second c d) (inner outer inner' outer' : Nat) :
    (((List.range outer).flatMap fun j => (List.range inner).map fun i => first i j) ++
      (List.range outer').flatMap fun j => (List.range inner').map fun i => second i j).Nodup := by
  refine List.Nodup.append (nested_nodup first apart inner outer)
    (nested_nodup second apart' inner' outer') ?_
  rw [List.disjoint_left]
  intro weight here there
  simp only [List.mem_flatMap, List.mem_map] at here there
  obtain ⟨_, _, _, _, rfl⟩ := here
  obtain ⟨_, _, _, _, same⟩ := there
  exact differ _ _ _ _ same.symm

theorem layout_nodup (shape : Shape) : shape.layout.Nodup := by
  apply nested_append_nodup
  · rintro a b c d ⟨⟩
    exact ⟨rfl, rfl⟩
  · rintro a b c d ⟨⟩
    exact ⟨rfl, rfl⟩
  · rintro a b c d ⟨⟩

end Shape

namespace FeedforwardNetwork

variable {K : Type*} [Semiring K] (network : FeedforwardNetwork K)

theorem getWeights_eq :
    network.getWeights =
      if network.shape.free < 65536 then some (network.shape.layout.map network.weight) else none :=
  network.shape.collect_eq network.weight

theorem setWeights_own (few : network.shape.free < 65536) :
    network.setWeights (network.shape.layout.map network.weight) = some network := by
  have kept : ∀ layout : List Weight,
      PointWrites.run setWeight (layout.zip (layout.map network.weight)) network = network := by
    intro layout
    induction layout with
    | nil => rfl
    | cons weight layout ih => simpa [PointWrites.run] using ih
  rw [setWeights, network.shape.distribute_eq few, kept, if_pos]
  rw [List.length_map, network.shape.layout_length]

end FeedforwardNetwork

end RlAqs
