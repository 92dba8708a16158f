import RlAqs.Queue.LadderCore
import Mathlib.Data.Multiset.AddSub
import Mathlib.Tactic.Linarith
import Mathlib.Tactic.Ring
import Mathlib.Tactic.FieldSimp
import Mathlib.Tactic.Push

/-! How the small operations of the ladder act on its rungs and buckets. -/

namespace RlAqs

namespace Rung

structure Packed (rung : Rung) : Prop where
  allocated : rung.lists.length = rung.buckets
  buckets : 0 < rung.buckets
  elsewhere : ∀ bucket, bucket ≠ rung.currentBucket → rung.lists.getD bucket [] = []
  counted : rung.events = rung.current.length

def held (rung : Rung) : Multiset Entry := (rung.lists.flatten : Multiset Entry)

def putAll (rung : Rung) (list : List Entry) : Rung :=
  { rung with
    events := rung.events + list.length
    lists := rung.lists.modify rung.currentBucket fun bucket => bucket ++ list }

theorem flatten_of_empty (lists : List (List Entry))
    (empty : ∀ bucket, lists.getD bucket [] = []) : lists.flatten = [] := by
  induction lists with
  | nil => rfl
  | cons first rest ih =>
      have head : first = [] := by simpa using empty 0
      have tail := ih fun bucket => by simpa using empty (bucket + 1)
      simp [head, tail]

theorem flatten_of_elsewhere (lists : List (List Entry)) (current : Nat)
    (elsewhere : ∀ bucket, bucket ≠ current → lists.getD bucket [] = []) :
    lists.flatten = lists.getD current [] := by
  induction lists generalizing current with
  | nil => simp
  | cons first rest ih =>
      cases current with
      | zero =>
          have tail := flatten_of_empty rest fun bucket => by
            simpa using elsewhere (bucket + 1) (by omega)
          simp [tail]
      | succ current =>
          have head : first = [] := by simpa using elsewhere 0 (by omega)
          have tail := ih current fun bucket other => by
            simpa using elsewhere (bucket + 1) (by omega)
          simpa [head] using tail

theorem Packed.held_eq {rung : Rung} (packed : rung.Packed) :
    rung.held = (rung.current : Multiset Entry) := by
  simp only [held, current, flatten_of_elsewhere _ _ packed.elsewhere]

theorem Packed.card_held {rung : Rung} (packed : rung.Packed) :
    rung.held.card = rung.events := by
  simp [packed.held_eq, packed.counted]

theorem Packed.current_bound {rung : Rung} (packed : rung.Packed) (loaded : rung.events ≠ 0) :
    rung.currentBucket < rung.lists.length := by
  by_contra outside
  apply loaded
  rw [packed.counted, current, List.getD_eq_getElem?_getD, List.getElem?_eq_none (by omega)]
  rfl

theorem getElem?_current {rung : Rung} (bound : rung.currentBucket < rung.lists.length) :
    rung.lists[rung.currentBucket]? = some rung.current := by
  rw [List.getElem?_eq_getElem bound, current, List.getD_eq_getElem?_getD,
    List.getElem?_eq_getElem bound]
  rfl

theorem Packed.empty_lists {rung : Rung} (packed : rung.Packed) (unloaded : rung.events = 0) :
    ∀ bucket, rung.lists.getD bucket [] = [] := by
  intro bucket
  by_cases same : bucket = rung.currentBucket
  · subst same
    exact List.eq_nil_of_length_eq_zero (by rw [← unloaded, packed.counted]; rfl)
  · exact packed.elsewhere bucket same

theorem Packed.unloaded {rung next : Rung} (packed : rung.Packed) (unloaded : rung.events = 0)
    (lists : next.lists = rung.lists) (buckets : next.buckets = rung.buckets)
    (events : next.events = 0) : next.Packed where
  allocated := by rw [lists, buckets, packed.allocated]
  buckets := by rw [buckets]; exact packed.buckets
  elsewhere := fun bucket _ => by rw [lists]; exact packed.empty_lists unloaded bucket
  counted := by
    rw [events, current, lists, packed.empty_lists unloaded]
    rfl

theorem Packed.timed {rung next : Rung} (packed : rung.Packed)
    (lists : next.lists = rung.lists) (buckets : next.buckets = rung.buckets)
    (current : next.currentBucket = rung.currentBucket)
    (events : next.events = rung.events) : next.Packed where
  allocated := by rw [lists, buckets, packed.allocated]
  buckets := by rw [buckets]; exact packed.buckets
  elsewhere := fun bucket other => by
    rw [lists]
    exact packed.elsewhere bucket (by rwa [← current])
  counted := by rw [events, packed.counted, Rung.current, Rung.current, lists, current]

theorem fresh_packed (thres : Nat) (positive : 0 < thres) : (Rung.fresh thres).Packed where
  allocated := by simp [Rung.fresh]
  buckets := positive
  elsewhere := fun bucket _ => by
    simp only [Rung.fresh, List.getD_eq_getElem?_getD, List.getElem?_replicate]
    split <;> rfl
  counted := by
    simp only [Rung.fresh, current, List.getD_eq_getElem?_getD, List.getElem?_replicate]
    split <;> rfl

theorem putAll_nil (rung : Rung) : rung.putAll [] = rung := by
  have same : rung.lists.modify rung.currentBucket (fun bucket => bucket) = rung.lists := by
    apply List.ext_getElem?
    intro index
    simp [List.getElem?_modify]
  simp [putAll, same]

theorem putAll_putAll (rung : Rung) (first second : List Entry) :
    (rung.putAll first).putAll second = rung.putAll (first ++ second) := by
  have same : (rung.lists.modify rung.currentBucket (fun bucket => bucket ++ first)).modify
      rung.currentBucket (fun bucket => bucket ++ second) =
      rung.lists.modify rung.currentBucket (fun bucket => bucket ++ (first ++ second)) := by
    apply List.ext_getElem?
    intro index
    simp only [List.getElem?_modify]
    cases rung.lists[index]? with
    | none => simp
    | some bucket => by_cases here : rung.currentBucket = index <;> simp [here]
  simp [putAll, same, Nat.add_assoc]

theorem current_putAll (rung : Rung) (list : List Entry)
    (bound : rung.currentBucket < rung.lists.length) :
    (rung.putAll list).current = rung.current ++ list := by
  simp [current, putAll, List.getD_eq_getElem?_getD, bound]

theorem Packed.putAll {rung : Rung} (packed : rung.Packed) (list : List Entry)
    (bound : rung.currentBucket < rung.lists.length) : (rung.putAll list).Packed where
  allocated := by simp [Rung.putAll, packed.allocated]
  buckets := packed.buckets
  elsewhere := fun bucket other => by
    have before := packed.elsewhere bucket other
    have different : rung.currentBucket ≠ bucket := fun same => other same.symm
    simpa [Rung.putAll, List.getD_eq_getElem?_getD, List.getElem?_modify, different] using before
  counted := by
    rw [current_putAll rung list bound, List.length_append, ← packed.counted]
    rfl

theorem Packed.held_putAll {rung : Rung} (packed : rung.Packed) (list : List Entry)
    (bound : rung.currentBucket < rung.lists.length) :
    (rung.putAll list).held = rung.held + (list : Multiset Entry) := by
  rw [(packed.putAll list bound).held_eq, packed.held_eq, current_putAll rung list bound,
    ← Multiset.coe_add]

def closed (rung : Rung) : Rung :=
  { rung with
    events := rung.events - rung.current.length
    currentBucket := rung.currentBucket + 1
    lists := rung.lists.set rung.currentBucket [] }

theorem Packed.closed_lists {rung : Rung} (packed : rung.Packed) (bucket : Nat) :
    rung.closed.lists.getD bucket [] = [] := by
  simp only [closed, List.getD_eq_getElem?_getD, List.getElem?_set]
  by_cases same : rung.currentBucket = bucket
  · subst same
    by_cases bound : rung.currentBucket < rung.lists.length <;> simp [bound]
  · have before := packed.elsewhere bucket fun equal => same equal.symm
    simpa [same, List.getD_eq_getElem?_getD] using before

theorem Packed.closed {rung : Rung} (packed : rung.Packed) : rung.closed.Packed where
  allocated := by simp [Rung.closed, packed.allocated]
  buckets := packed.buckets
  elsewhere := fun bucket _ => packed.closed_lists bucket
  counted := by
    rw [current, packed.closed_lists]
    simp [Rung.closed, packed.counted]

theorem Packed.closed_events {rung : Rung} (packed : rung.Packed) : rung.closed.events = 0 := by
  simp [Rung.closed, packed.counted]

theorem advance_of_current {rung : Rung} (loaded : rung.current ≠ []) :
    rung.advance = some rung := by
  by_cases bound : rung.currentBucket < rung.lists.length
  · have found : rung.current = rung.lists[rung.currentBucket] := by
      simp [current, bound]
    rw [advance, List.drop_eq_getElem_cons bound, ← found]
    cases content : rung.current with
    | nil => exact absurd content loaded
    | cons first rest => rfl
  · refine absurd ?_ loaded
    rw [current, List.getD_eq_getElem?_getD, List.getElem?_eq_none (by omega)]
    rfl

end Rung

namespace Ladder

@[simp] theorem modifyRung_thres (ladder : Ladder) (index : Nat) (change : Rung → Rung) :
    (ladder.modifyRung index change).thres = ladder.thres := rfl

@[simp] theorem modifyRung_lowestRung (ladder : Ladder) (index : Nat) (change : Rung → Rung) :
    (ladder.modifyRung index change).lowestRung = ladder.lowestRung := rfl

@[simp] theorem modifyRung_nbc (ladder : Ladder) (index : Nat) (change : Rung → Rung) :
    (ladder.modifyRung index change).nbc = ladder.nbc := rfl

@[simp] theorem modifyRung_bucketsFirstRung (ladder : Ladder) (index : Nat)
    (change : Rung → Rung) :
    (ladder.modifyRung index change).bucketsFirstRung = ladder.bucketsFirstRung := rfl

@[simp] theorem modifyRung_nRung (ladder : Ladder) (index : Nat) (change : Rung → Rung) :
    (ladder.modifyRung index change).nRung = ladder.nRung := by
  simp [modifyRung, nRung]

theorem rung_modifyRung_self (ladder : Ladder) {index : Nat} (change : Rung → Rung)
    (bound : index < ladder.nRung) :
    (ladder.modifyRung index change).rung index = change (ladder.rung index) := by
  simp only [nRung] at bound
  simp [modifyRung, rung, List.getD_eq_getElem?_getD, bound]

theorem rung_modifyRung_of_ne (ladder : Ladder) {index query : Nat} (change : Rung → Rung)
    (different : query ≠ index) :
    (ladder.modifyRung index change).rung query = ladder.rung query := by
  simp [modifyRung, rung, List.getD_eq_getElem?_getD, different.symm]

theorem rung_of_outside (ladder : Ladder) {index : Nat} (outside : ladder.nRung ≤ index) :
    ladder.rung index = default := by
  rw [rung, List.getD_eq_getElem?_getD, List.getElem?_eq_none outside]
  rfl

@[simp] theorem addEvents_nRung (ladder : Ladder) (index size : Nat) :
    (ladder.addEvents index size).nRung = ladder.nRung :=
  modifyRung_nRung ladder index _

theorem rung_addEvents_self (ladder : Ladder) {index : Nat} (size : Nat)
    (bound : index < ladder.nRung) :
    (ladder.addEvents index size).rung index =
      { ladder.rung index with events := (ladder.rung index).events + size } :=
  rung_modifyRung_self ladder _ bound

theorem rung_addEvents_of_ne (ladder : Ladder) {index query : Nat} (size : Nat)
    (different : query ≠ index) :
    (ladder.addEvents index size).rung query = ladder.rung query :=
  rung_modifyRung_of_ne ladder _ different

@[simp] theorem removeEvents_nRung (ladder : Ladder) (index size : Nat) :
    (ladder.removeEvents index size).nRung = ladder.nRung :=
  modifyRung_nRung ladder index _

theorem rung_removeEvents_self (ladder : Ladder) {index : Nat} (size : Nat)
    (bound : index < ladder.nRung) :
    (ladder.removeEvents index size).rung index =
      { ladder.rung index with events := (ladder.rung index).events - size } :=
  rung_modifyRung_self ladder _ bound

theorem rung_removeEvents_of_ne (ladder : Ladder) {index query : Nat} (size : Nat)
    (different : query ≠ index) :
    (ladder.removeEvents index size).rung query = ladder.rung query :=
  rung_modifyRung_of_ne ladder _ different

theorem ext_rungs {left right : Ladder} (thres : left.thres = right.thres)
    (lowestRung : left.lowestRung = right.lowestRung) (nbc : left.nbc = right.nbc)
    (bucketsFirstRung : left.bucketsFirstRung = right.bucketsFirstRung)
    (nRung : left.nRung = right.nRung) (rungs : ∀ index, left.rung index = right.rung index) :
    left = right := by
  have lists : left.rungs = right.rungs := by
    apply List.ext_getElem nRung
    intro index leftBound rightBound
    have same := rungs index
    simpa [rung, leftBound, rightBound] using same
  cases left
  cases right
  simp_all

def putAll (ladder : Ladder) (index : Nat) (list : List Entry) : Ladder :=
  { ladder.modifyRung index fun rung => rung.putAll list with nbc := ladder.nbc + list.length }

@[simp] theorem putAll_thres (ladder : Ladder) (index : Nat) (list : List Entry) :
    (ladder.putAll index list).thres = ladder.thres := rfl

@[simp] theorem putAll_lowestRung (ladder : Ladder) (index : Nat) (list : List Entry) :
    (ladder.putAll index list).lowestRung = ladder.lowestRung := rfl

@[simp] theorem putAll_nbc (ladder : Ladder) (index : Nat) (list : List Entry) :
    (ladder.putAll index list).nbc = ladder.nbc + list.length := rfl

@[simp] theorem putAll_bucketsFirstRung (ladder : Ladder) (index : Nat) (list : List Entry) :
    (ladder.putAll index list).bucketsFirstRung = ladder.bucketsFirstRung := rfl

@[simp] theorem putAll_nRung (ladder : Ladder) (index : Nat) (list : List Entry) :
    (ladder.putAll index list).nRung = ladder.nRung :=
  modifyRung_nRung ladder index _

theorem rung_putAll_self (ladder : Ladder) {index : Nat} (list : List Entry)
    (bound : index < ladder.nRung) :
    (ladder.putAll index list).rung index = (ladder.rung index).putAll list :=
  rung_modifyRung_self ladder _ bound

theorem rung_putAll_of_ne (ladder : Ladder) {index query : Nat} (list : List Entry)
    (different : query ≠ index) :
    (ladder.putAll index list).rung query = ladder.rung query :=
  rung_modifyRung_of_ne ladder _ different

theorem putAll_nil (ladder : Ladder) (index : Nat) : ladder.putAll index [] = ladder := by
  apply ext_rungs <;> try simp
  intro query
  by_cases same : query = index
  · subst same
    by_cases bound : query < ladder.nRung
    · rw [rung_putAll_self ladder [] bound, Rung.putAll_nil]
    · rw [rung_of_outside _ (by simpa using bound), rung_of_outside _ (by omega)]
  · exact rung_putAll_of_ne ladder [] same

theorem putAll_putAll (ladder : Ladder) (index : Nat) (first second : List Entry) :
    (ladder.putAll index first).putAll index second = ladder.putAll index (first ++ second) := by
  apply ext_rungs <;> try simp [Nat.add_assoc]
  intro query
  by_cases same : query = index
  · subst same
    by_cases bound : query < ladder.nRung
    · rw [rung_putAll_self _ second (by simpa using bound), rung_putAll_self ladder first bound,
        rung_putAll_self ladder _ bound, Rung.putAll_putAll]
    · rw [rung_of_outside _ (by simpa using bound), rung_of_outside _ (by simpa using bound)]
  · rw [rung_putAll_of_ne _ second same, rung_putAll_of_ne ladder first same,
      rung_putAll_of_ne ladder _ same]

/-! The bucket of a time. -/

theorem bucket_of_first {ladder : Ladder} {ts : ℚ} {index : Nat}
    (first : (ladder.rung index).currentBucket = 0) : ladder.bucket ts index = 0 := by
  have clamped : ∀ found : Nat, (if found > 0 then 0 else found) = 0 := by
    intro found
    split <;> omega
  simp only [bucket, first]
  exact clamped _

theorem toUInt32_of_range (x : ℚ) (lower upper : Nat) (above : (lower : ℚ) ≤ x)
    (below : x < upper) (small : upper ≤ 2 ^ 32) :
    lower ≤ toUInt32 x ∧ toUInt32 x < upper := by
  have floorLower : (lower : ℤ) ≤ ⌊x⌋ := Int.le_floor.mpr (by exact_mod_cast above)
  have floorUpper : ⌊x⌋ < (upper : ℤ) := Int.floor_lt.mpr (by exact_mod_cast below)
  have low : ⌊x⌋.toNat % 2 ^ 32 = ⌊x⌋.toNat := Nat.mod_eq_of_lt (by omega)
  simp only [toUInt32, low]
  omega

theorem bucket_of_open {ladder : Ladder} {ts : ℚ} {index : Nat} (limit : Nat)
    (width : 0 < (ladder.rung index).bucketwidth)
    (above : (ladder.rung index).rStart +
      (ladder.rung index).currentBucket * (ladder.rung index).bucketwidth ≤ ts)
    (below : ts < (ladder.rung index).rStart + limit * (ladder.rung index).bucketwidth)
    (small : limit ≤ 2 ^ 32) (buckets : limit < (ladder.rung index).buckets) :
    ladder.bucket ts index = (ladder.rung index).currentBucket := by
  have current : (0 : ℚ) ≤ (ladder.rung index).currentBucket * (ladder.rung index).bucketwidth := by
    positivity
  have positive : 0 ≤ ts - (ladder.rung index).rStart := by linarith
  have diff : (if ts - (ladder.rung index).rStart ≤ 0 then 0 else
      ts - (ladder.rung index).rStart) = ts - (ladder.rung index).rStart := by
    split <;> linarith
  have range := toUInt32_of_range
    ((ts - (ladder.rung index).rStart) / (ladder.rung index).bucketwidth)
    (ladder.rung index).currentBucket limit
    (by rw [le_div_iff₀ width]; linarith) (by rw [div_lt_iff₀ width]; linarith) small
  simp only [bucket, diff]
  generalize toUInt32 _ = found at range ⊢
  have lower : ¬ found < (ladder.rung index).currentBucket := by omega
  have upper : ¬ found ≥ (ladder.rung index).buckets := by omega
  simp only [lower, upper, ↓reduceIte]
  split <;> omega

/-! Entering events. -/

theorem enter_eq (ladder : Ladder) {index : Nat} (entry : Entry) (inside : index < ladder.nRung)
    (found : ladder.bucket entry.arrival index = (ladder.rung index).currentBucket)
    (bound : (ladder.rung index).currentBucket < (ladder.rung index).lists.length) :
    ladder.enter index entry = (.ok (), ladder.putAll index [entry]) := by
  simp only [enter, found, bound, ↓reduceIte]
  congr 1
  refine ext_rungs ?_ ?_ ?_ ?_ ?_ ?_
  iterate 4 rfl
  · simp
  · intro query
    by_cases same : query = index
    · subst same
      rw [rung_putAll_self ladder _ inside, rung_addEvents_self _ _ (by simpa using inside),
        rung_modifyRung_self _ _ inside]
      rfl
    · rw [rung_putAll_of_ne ladder _ same, rung_addEvents_of_ne _ _ same,
        rung_modifyRung_of_ne _ _ same]

theorem pushRung_eq (ladder : Ladder) {index : Nat} (list : List Entry)
    (inside : index < ladder.nRung) (first : (ladder.rung index).currentBucket = 0)
    (allocated : 0 < (ladder.rung index).lists.length) :
    ladder.pushRung index list = (.ok (), ladder.putAll index list, []) := by
  induction list generalizing ladder with
  | nil => simp [pushRung, putAll_nil]
  | cons entry rest ih =>
      have entered := ladder.enter_eq entry inside
        (by rw [bucket_of_first first, first]) (by rwa [first])
      have own := ladder.rung_putAll_self [entry] inside
      have next := ih (ladder.putAll index [entry]) (by simpa using inside)
        (by rw [own]; exact first) (by rw [own]; simpa [Rung.putAll] using allocated)
      simp only [pushRung, entered, next, putAll_putAll, List.singleton_append]

/-! The search for the rung. -/

theorem findRung_spec (ladder : Ladder) (ts : ℚ) (below : Nat)
    (inside : below ≤ ladder.lowestRung) (fits : ladder.lowest.rCur ≤ ts)
    (earlier : ∀ index < ladder.lowestRung - below, ts < (ladder.rung index).rCur) :
    ladder.findRung ts below ≤ ladder.lowestRung ∧
      (ladder.rung (ladder.findRung ts below)).rCur ≤ ts ∧
      ∀ index < ladder.findRung ts below, ts < (ladder.rung index).rCur := by
  induction below with
  | zero => exact ⟨Nat.le_refl _, fits, by simpa [findRung] using earlier⟩
  | succ below ih =>
      simp only [findRung]
      split
      · rename_i late
        apply ih (by omega)
        intro index bound
        by_cases last : index = ladder.lowestRung - (below + 1)
        · rwa [last]
        · exact earlier index (by omega)
      · rename_i early
        exact ⟨by omega, not_lt.mp early, earlier⟩

end Ladder

end RlAqs
