import RlAqs.Network.FeaturesCore
import RlAqs.Network.RoutinesReference
import Mathlib.Data.List.GetD

/-!
When the features come out right. The vector of the intersection is filled from the second
out-neighbour on, and from the third on it stays what it is: one out-neighbour always gets a new
feature, and the third and later ones are not asked.
-/

namespace RlAqs

theorem IntSet.intersect_congr (set : IntSet) {left right : IntSet}
    (same : ∀ x, x ∈ left ↔ x ∈ right) : set.intersect left = set.intersect right := by
  simp only [IntSet.intersect, same]

namespace Features

variable {state : Features} {targets : List Nat} {draw vertex : Nat}

theorem intersection_single (features : Nat → IntSet) (only : Nat) :
    intersection features [only] = [] := rfl

theorem turn_kept {features : Nat → IntSet} {scratch : Scratch}
    (inside : ∀ x ∈ scratch.t1, x ∈ scratch.t2)
    (filled : scratch.intersection = scratch.t1.elements) (rest : List Nat) :
    (rest.foldl (Scratch.turn features) scratch).intersection = scratch.t1.elements := by
  induction rest generalizing scratch with
  | nil => exact filled
  | cons target rest ih =>
      have wider : ∀ x ∈ scratch.t1, x ∈ scratch.t2.insertAll (features target) := fun x member =>
        IntSet.mem_insertAll.mpr (.inr (inside x member))
      have kept : (Scratch.turn features scratch target).t1 = scratch.t1 :=
        IntSet.intersect_eq_self wider
      have later := @ih (Scratch.turn features scratch target)
        (fun x member => wider x (kept ▸ member)) rfl
      rwa [kept] at later

/-- Only the first two out-neighbours count. -/
theorem intersection_pair (features : Nat → IntSet) (first second : Nat) (rest : List Nat) :
    intersection features (first :: second :: rest) =
      ((features first).intersect (features second)).elements := by
  have read : (features first).intersect (IntSet.empty.insertAll (features second)) =
      (features first).intersect (features second) :=
    (features first).intersect_congr fun x => by
      rw [IntSet.mem_insertAll, or_iff_left (IntSet.not_mem_empty x)]
  rw [intersection, List.foldl_cons, turn_kept _ rfl rest]
  · exact congrArg IntSet.elements read
  · intro x member
    exact (IntSet.mem_intersect.mp member).2

def Offered (state : Features) (targets : List Nat) (x : Int) : Prop :=
  ∀ target ∈ targets, x ∈ state.features target

def SoundlyChosen (targets : List Nat) (vertex : Nat) (before after : Features) : Prop :=
  (after.numFeatures ≠ before.numFeatures → ∀ x, ¬before.Offered targets x) ∧
    (after.numFeatures = before.numFeatures →
      before.Offered targets (after.choice vertex) ∧ after.features = before.features)

/-- A single out-neighbour has no features yet; of several, what is drawn from the common features
of the first two is offered by the others as well. -/
def Fitting (state : Features) (draw : Nat) : List Nat → Prop
  | [] => True
  | [only] => ∀ x, x ∉ state.features only
  | first :: second :: rest =>
      let common := ((state.features first).intersect (state.features second)).elements
      common ≠ [] → state.Offered rest (common.getD (draw % common.length) 0)

/-- A vertex whose degree the counter takes for zero keeps the choice it has. -/
def Choosable (state : Features) (draw vertex : Nat) (targets : List Nat) : Prop :=
  (targets.length % 65536 = 0 → state.Offered targets (state.choice vertex)) ∧
    (targets.length % 65536 ≠ 0 → state.Fitting draw targets)

theorem establish_idle (skipped : targets.length % 65536 = 0) :
    state.establish targets draw vertex = state := by
  simp only [establish, skipped, lt_irrefl, if_false]

theorem establish_create (processed : targets.length % 65536 ≠ 0)
    (none : intersection state.features targets = []) :
    state.establish targets draw vertex = state.create targets vertex := by
  simp only [establish, Nat.pos_of_ne_zero processed, if_true, none, ne_eq, not_true_eq_false,
    if_false]

theorem establish_choose (processed : targets.length % 65536 ≠ 0) {common : List Int}
    (some_feature : intersection state.features targets = common) (nonempty : common ≠ []) :
    state.establish targets draw vertex =
      { state with choice :=
          Function.update state.choice vertex (common.getD (draw % common.length) 0) } := by
  simp only [establish, Nat.pos_of_ne_zero processed, if_true, some_feature, ne_eq, nonempty,
    not_false_eq_true]

theorem create_numFeatures : (state.create targets vertex).numFeatures ≠ state.numFeatures := by
  change (state.numFeatures + 1) % 65536 ≠ state.numFeatures
  omega

theorem soundlyChosen_create_iff :
    SoundlyChosen targets vertex state (state.create targets vertex) ↔
      ∀ x, ¬state.Offered targets x := by
  refine ⟨fun sound => sound.1 create_numFeatures, fun none => ⟨fun _ => none, fun same => ?_⟩⟩
  exact absurd same create_numFeatures

theorem soundlyChosen_choose_iff {x : Int} :
    SoundlyChosen targets vertex state
        { state with choice := Function.update state.choice vertex x } ↔ state.Offered targets x := by
  constructor
  · intro sound
    simpa only [Function.update_self] using (sound.2 rfl).1
  · intro offered
    refine ⟨fun new => absurd rfl new, fun _ => ⟨?_, rfl⟩⟩
    simpa only [Function.update_self] using offered

theorem soundlyChosen_single_iff {only : Nat} :
    SoundlyChosen [only] vertex state (state.establish [only] draw vertex) ↔
      ∀ x, x ∉ state.features only := by
  have single : [only].length % 65536 ≠ 0 := Nat.one_ne_zero
  rw [establish_create single (intersection_single _ _), soundlyChosen_create_iff]
  simp [Offered]

theorem soundlyChosen_several_iff {first second : Nat} {rest : List Nat}
    (processed : (first :: second :: rest).length % 65536 ≠ 0) :
    SoundlyChosen (first :: second :: rest) vertex state
        (state.establish (first :: second :: rest) draw vertex) ↔
      state.Fitting draw (first :: second :: rest) := by
  have pair := intersection_pair state.features first second rest
  have member_iff : ∀ x, x ∈ ((state.features first).intersect (state.features second)).elements ↔
      x ∈ state.features first ∧ x ∈ state.features second := fun x => IntSet.mem_intersect
  rw [Fitting]
  generalize ((state.features first).intersect (state.features second)).elements = common
    at pair member_iff
  by_cases nonempty : common = []
  · rw [establish_create processed (pair.trans nonempty), soundlyChosen_create_iff]
    refine ⟨fun _ some_feature => absurd nonempty some_feature, fun _ x offered => ?_⟩
    have both := (member_iff x).mpr ⟨offered first (by simp), offered second (by simp)⟩
    rw [nonempty] at both
    exact List.not_mem_nil both
  · rw [establish_choose processed pair nonempty, soundlyChosen_choose_iff]
    have drawn : draw % common.length < common.length :=
      Nat.mod_lt _ (List.length_pos_iff.mpr nonempty)
    have both := (member_iff _).mp (List.getElem_mem drawn)
    rw [← List.getD_eq_getElem _ 0 drawn] at both
    constructor
    · intro offered _ target member
      exact offered target (List.mem_cons_of_mem _ (List.mem_cons_of_mem _ member))
    · intro fitting target member
      rcases List.mem_cons.mp member with rfl | later
      · exact both.1
      · rcases List.mem_cons.mp later with rfl | other
        · exact both.2
        · exact fitting nonempty target other

theorem soundlyChosen_establish_iff (linked : targets ≠ []) :
    SoundlyChosen targets vertex state (state.establish targets draw vertex) ↔
      state.Choosable draw vertex targets := by
  by_cases skipped : targets.length % 65536 = 0
  · rw [establish_idle skipped]
    refine ⟨fun sound => ⟨fun _ => (sound.2 rfl).1, fun processed => absurd skipped processed⟩, ?_⟩
    exact fun choosable => ⟨fun new => absurd rfl new, fun _ => ⟨choosable.1 skipped, rfl⟩⟩
  · have fitting : SoundlyChosen targets vertex state (state.establish targets draw vertex) ↔
        state.Fitting draw targets := by
      match targets, linked, skipped with
      | [only], _, _ => exact soundlyChosen_single_iff
      | first :: second :: rest, _, processed => exact soundlyChosen_several_iff processed
    rw [fitting]
    exact ⟨fun fits => ⟨fun idle => absurd idle skipped, fun _ => fits⟩, fun choosable =>
      choosable.2 skipped⟩

/-! The sets grow, and a vertex keeps its choice. -/

theorem mem_create {target : Nat} {x : Int} :
    x ∈ (state.create targets vertex).features target ↔
      target ∈ targets ∧ x = (state.create targets vertex).numFeatures ∨
        x ∈ state.features target := by
  have inserted : ∀ (targets : List Nat) (features : Nat → IntSet) (new : Int),
      x ∈ targets.foldl (fun features target =>
        Function.update features target ((features target).insert new)) features target ↔
        target ∈ targets ∧ x = new ∨ x ∈ features target := by
    intro targets
    induction targets with
    | nil => simp
    | cons first rest ih =>
        intro features new
        rw [List.foldl_cons, ih]
        by_cases same : target = first
        · simp only [same, Function.update_self, IntSet.mem_insert, List.mem_cons_self, true_and]
          tauto
        · simp only [Function.update_of_ne same, List.mem_cons, same, false_or]
  exact inserted targets state.features _

theorem mem_establish {target : Nat} {x : Int} (member : x ∈ state.features target) :
    x ∈ (state.establish targets draw vertex).features target := by
  simp only [establish]
  split_ifs
  · exact member
  · exact mem_create.mpr (.inr member)
  · exact member

theorem choice_establish {other : Nat} (apart : other ≠ vertex) :
    (state.establish targets draw vertex).choice other = state.choice other := by
  simp only [establish, create]
  split_ifs
  · exact Function.update_of_ne apart _ _
  · exact Function.update_of_ne apart _ _
  · rfl

theorem SoundlyChosen.offered
    (sound : SoundlyChosen targets vertex state (state.establish targets draw vertex)) :
    (state.establish targets draw vertex).Offered targets
      ((state.establish targets draw vertex).choice vertex) := by
  by_cases old : (state.establish targets draw vertex).numFeatures = state.numFeatures
  · obtain ⟨offered, same⟩ := sound.2 old
    rw [Offered, same]
    exact offered
  · have created : state.establish targets draw vertex = state.create targets vertex := by
      simp only [establish] at old ⊢
      split_ifs at old ⊢
      · exact absurd rfl old
      · rfl
      · exact absurd rfl old
    rw [created]
    intro target member
    refine mem_create.mpr (.inl ⟨member, ?_⟩)
    exact Function.update_self vertex _ state.choice

end Features

namespace Network

open Features

variable {routines : Routines} {network : Network} {draws : Nat → Nat} {start : Features}

theorem featuresAt_succ (count : Nat) :
    network.featuresAt routines draws start (count + 1) =
      (network.featuresAt routines draws start count).establish (network.targets routines count)
        (draws count) count := by
  rw [featuresAt, List.range_succ, List.foldl_append]
  rfl

theorem featuresAt_offered {targets : List Nat} {vertex count : Nat} (processed : vertex < count)
    (offered : (network.featuresAt routines draws start (vertex + 1)).Offered targets
      ((network.featuresAt routines draws start (vertex + 1)).choice vertex)) :
    (network.featuresAt routines draws start count).Offered targets
      ((network.featuresAt routines draws start count).choice vertex) := by
  induction processed with
  | refl => exact offered
  | @step count before ih =>
      rw [featuresAt_succ, choice_establish (Nat.lt_of_succ_le before).ne]
      intro target member
      exact mem_establish (ih target member)

/-- The features of a graph come out right exactly when every vertex can be given a choice at the
moment it is processed. -/
theorem establishFeatures_sound_iff (routines : Routines) (network : Network) (draws : Nat → Nat)
    (start : Features) :
    ((∀ vertex < network.size, network.targets routines vertex ≠ [] →
        SoundlyChosen (network.targets routines vertex) vertex
          (network.featuresAt routines draws start vertex)
          (network.featuresAt routines draws start (vertex + 1))) ∧
      ∀ vertex < network.size, network.targets routines vertex ≠ [] →
        (network.establishFeatures routines draws start).Offered (network.targets routines vertex)
          ((network.establishFeatures routines draws start).choice vertex)) ↔
      ∀ vertex < network.size, network.targets routines vertex ≠ [] →
        (network.featuresAt routines draws start vertex).Choosable (draws vertex) vertex
          (network.targets routines vertex) := by
  constructor
  · rintro ⟨sound, _⟩ vertex inside linked
    have chosen := sound vertex inside linked
    rw [featuresAt_succ] at chosen
    exact (soundlyChosen_establish_iff linked).mp chosen
  · intro choosable
    have sound : ∀ vertex < network.size, network.targets routines vertex ≠ [] →
        SoundlyChosen (network.targets routines vertex) vertex
          (network.featuresAt routines draws start vertex)
          (network.featuresAt routines draws start (vertex + 1)) := by
      intro vertex inside linked
      rw [featuresAt_succ]
      exact (soundlyChosen_establish_iff linked).mpr (choosable vertex inside linked)
    refine ⟨sound, fun vertex inside linked => ?_⟩
    have chosen := sound vertex inside linked
    refine featuresAt_offered inside ?_
    rw [featuresAt_succ] at chosen ⊢
    exact chosen.offered

def star : Network :=
  [(1, 0), (2, 0)].foldl (fun network edge => network.addEdge edge.1 edge.2) (ofSize 3)

def starFeatures : Features :=
  star.establishFeatures Routines.reference (fun _ => 0) (fresh fun _ => 0)

def crossing : Network :=
  [(3, 0), (3, 1), (4, 0), (4, 1), (4, 2)].foldl
    (fun network edge => network.addEdge edge.1 edge.2) (ofSize 5)

def crossingFeatures : Features :=
  crossing.establishFeatures Routines.reference (fun _ => 0) (fresh fun _ => 0)

/-- A single out-neighbour gets a second feature, and a third one does not have what is chosen. -/
theorem establishFeatures_unsound :
    starFeatures.choice 2 = 2 ∧ (starFeatures.features 0).elements = [1, 2] ∧
    crossingFeatures.choice 4 = 1 ∧ (crossingFeatures.features 2).elements = [] ∧
    (¬∀ (routines : Routines) (network : Network) (draws : Nat → Nat) (choice : Nat → Int),
      ∀ vertex < network.size, network.targets routines vertex ≠ [] →
        SoundlyChosen (network.targets routines vertex) vertex
          (network.featuresAt routines draws (fresh choice) vertex)
          (network.featuresAt routines draws (fresh choice) (vertex + 1))) ∧
    ¬∀ (routines : Routines) (network : Network) (draws : Nat → Nat) (choice : Nat → Int),
      ∀ vertex < network.size, network.targets routines vertex ≠ [] →
        (network.establishFeatures routines draws (fresh choice)).Offered
          (network.targets routines vertex)
          ((network.establishFeatures routines draws (fresh choice)).choice vertex) := by
  refine ⟨by decide +kernel, by decide +kernel, by decide +kernel, by decide +kernel,
    fun always => ?_, fun always => ?_⟩
  · have sound := always Routines.reference star (fun _ => 0) (fun _ => 0) 2 (by decide) (by decide)
    refine sound.1 (by decide +kernel) 1 ?_
    have offered : ∀ target ∈ star.targets Routines.reference 2, (1 : Int) ∈
        (star.featuresAt Routines.reference (fun _ => 0) (fresh fun _ => 0) 2).features target := by
      decide +kernel
    exact offered
  · have offered := always Routines.reference crossing (fun _ => 0) (fun _ => 0) 4 (by decide)
      (by decide) 2 (by decide)
    exact absurd offered (by decide +kernel)

end Network

end RlAqs
