import RlAqs.Library.Counter
import RlAqs.Network.FeaturesCore
import Mathlib.Data.List.TakeWhile

/-!
`operator <<` and `operator >>` of `IntSet` and `IntVector`. A stream is the text it holds. What the
one writes the other reads.
-/

namespace RlAqs

def IsInt (a : Int) : Prop := -2 ^ 31 ≤ a ∧ a < 2 ^ 31

instance (a : Int) : Decidable (IsInt a) := inferInstanceAs (Decidable (_ ∧ _))

def decimal (a : Int) : List Char :=
  if a < 0 then '-' :: Nat.toDigits 10 a.natAbs else Nat.toDigits 10 a.natAbs

def unsignedCast (text : List Char) : Option Nat :=
  if text ≠ [] ∧ text.all Char.isDigit then some (Nat.ofDigitChars 10 text 0) else none

def lexicalCast (text : List Char) : Option Int :=
  let value := match text with
    | '-' :: digits => (unsignedCast digits).map fun n : Nat => -(n : Int)
    | '+' :: digits => (unsignedCast digits).map fun n : Nat => (n : Int)
    | digits => (unsignedCast digits).map fun n : Nat => (n : Int)
  value.filter fun a => decide (IsInt a)

/-- `boost::tokenizer` with a `char_separator`, which drops empty tokens. -/
def tokens (str : List Char) : List (List Char) :=
  (str.splitOn ',').filter fun token => token ≠ []

def getline (stream : List Char) : List Char × List Char :=
  (stream.takeWhile (· ≠ '\n'), (stream.dropWhile (· ≠ '\n')).tail)

/-- The loop over the tokens of a line. A token that is no number ends it with an exception. -/
def readTokens {σ : Type*} (take : σ → Int → σ) (state : σ) (stream : List Char) :
    Option (σ × List Char) :=
  let (str, rest) := getline stream
  let read := (tokens str).foldlM (fun state token => (lexicalCast token).map (take state)) state
  read.map fun state => (state, rest)

namespace IntSet

def writeTurn (secondLast : Nat) (stream : List Char) (iter : Int × Nat) : List Char :=
  if iter.2 ≠ secondLast then stream ++ decimal iter.1 ++ [','] else stream ++ decimal iter.1

def write (set : IntSet) : List Char :=
  let last := set.elements.length
  let secondLast := if set.elements.isEmpty then last else last - 1
  set.elements.zipIdx.foldl (writeTurn secondLast) []

def read (set : IntSet) (stream : List Char) : Option (IntSet × List Char) :=
  readTokens insert set stream

end IntSet

abbrev IntVector := List Int

namespace IntVector

def writeTurn (vector : IntVector) (i : Nat) (stream : List Char) :
    Except Unit (Counter.Turn (List Char)) :=
  match vector[i]? with
  | some element =>
      if i < vector.length - 1 then .ok (.next (stream ++ decimal element ++ [',']))
      else .ok (.next (stream ++ decimal element))
  | none => .error ()

/-- The index has 16 bits. -/
def write (fuel : Nat) (vector : IntVector) : Except Unit (List Char) :=
  Counter.loop () 65536 vector.length vector.writeTurn fuel 0 []

def read (vector : IntVector) (stream : List Char) : Option (IntVector × List Char) :=
  readTokens (fun vector element => vector ++ [element]) vector stream

end IntVector

/-! One number. -/

theorem unsignedCast_toDigits (n : Nat) : unsignedCast (Nat.toDigits 10 n) = some n := by
  have digits : (Nat.toDigits 10 n).all Char.isDigit := by
    rw [List.all_eq_true]
    intro c member
    exact Nat.isDigit_of_mem_toDigits (by omega) (by omega) member
  rw [unsignedCast, if_pos ⟨Nat.toDigits_ne_nil, digits⟩,
    Nat.ofDigitChars_toDigits (by omega) (by omega)]

theorem decimal_mark {a : Int} {c : Char} (member : c ∈ decimal a) : c = '-' ∨ c.isDigit := by
  unfold decimal at member
  split at member
  · rcases List.mem_cons.mp member with rfl | digit
    · exact .inl rfl
    · exact .inr (Nat.isDigit_of_mem_toDigits (by omega) (by omega) digit)
  · exact .inr (Nat.isDigit_of_mem_toDigits (by omega) (by omega) member)

theorem decimal_ne_nil (a : Int) : decimal a ≠ [] := by
  unfold decimal
  split
  · exact List.cons_ne_nil _ _
  · exact Nat.toDigits_ne_nil

theorem comma_not_mem_decimal (a : Int) : ',' ∉ decimal a := by
  intro member
  rcases decimal_mark member with same | digit
  · cases same
  · cases digit

theorem newline_not_mem_decimal (a : Int) : '\n' ∉ decimal a := by
  intro member
  rcases decimal_mark member with same | digit
  · cases same
  · cases digit

theorem lexicalCast_digits {digits : List Char} (all : ∀ c ∈ digits, c.isDigit) :
    lexicalCast digits =
      ((unsignedCast digits).map fun n : Nat => (n : Int)).filter fun a => decide (IsInt a) := by
  cases digits with
  | nil => rfl
  | cons c digits =>
      have digit := all c List.mem_cons_self
      unfold lexicalCast
      split
      · rename_i sign
        obtain ⟨rfl, _⟩ := List.cons_eq_cons.mp sign
        cases digit
      · rename_i sign
        obtain ⟨rfl, _⟩ := List.cons_eq_cons.mp sign
        cases digit
      · rfl

theorem lexicalCast_decimal {a : Int} (fits : IsInt a) : lexicalCast (decimal a) = some a := by
  by_cases negative : a < 0
  · have value : -(a.natAbs : Int) = a := by omega
    rw [decimal, if_pos negative, lexicalCast]
    simp only [unsignedCast_toDigits, Option.map_some, value]
    rw [Option.filter_some, if_pos (decide_eq_true fits)]
  · have value : (a.natAbs : Int) = a := by omega
    rw [decimal, if_neg negative, lexicalCast_digits, unsignedCast_toDigits, Option.map_some, value,
      Option.filter_some, if_pos (decide_eq_true fits)]
    exact fun c member => Nat.isDigit_of_mem_toDigits (by omega) (by omega) member

/-! A line of numbers. -/

def separated (before : List Int) (last : Int) : List Char :=
  before.flatMap (fun element => decimal element ++ [',']) ++ decimal last

theorem tokens_separated (before : List Int) (last : Int) :
    tokens (separated before last) = (before ++ [last]).map decimal := by
  have split : (separated before last).splitOn ',' = (before ++ [last]).map decimal := by
    induction before with
    | nil => exact List.splitOn_eq_singleton (comma_not_mem_decimal last)
    | cons element before ih =>
        have text : separated (element :: before) last =
            decimal element ++ ',' :: separated before last := by
          simp [separated]
        rw [text, List.splitOn_append_cons_self_of_not_mem (comma_not_mem_decimal element), ih]
        rfl
  rw [tokens, split, List.filter_eq_self]
  intro token member
  obtain ⟨element, _, rfl⟩ := List.mem_map.mp member
  exact decide_eq_true (decimal_ne_nil element)

theorem getline_line {line : List Char} (open_line : '\n' ∉ line) : getline line = (line, []) := by
  have all : ∀ c ∈ line, (decide (c ≠ '\n')) = true :=
    fun c member => decide_eq_true fun same => open_line (same ▸ member)
  rw [getline, List.takeWhile_eq_self_iff.mpr all, List.dropWhile_eq_nil_iff.mpr all]
  rfl

theorem newline_not_mem_separated (before : List Int) (last : Int) :
    '\n' ∉ separated before last := by
  rw [separated, List.mem_append, List.mem_flatMap]
  rintro (⟨element, _, member⟩ | member)
  · rcases List.mem_append.mp member with digit | comma
    · exact newline_not_mem_decimal element digit
    · cases List.mem_singleton.mp comma
  · exact newline_not_mem_decimal last member

theorem readTokens_separated {σ : Type*} (take : σ → Int → σ) (state : σ) (before : List Int)
    (last : Int) (fits : ∀ a ∈ before ++ [last], IsInt a) :
    readTokens take state (separated before last) =
      some ((before ++ [last]).foldl take state, []) := by
  have taken : ∀ (elements : List Int) (state : σ), (∀ a ∈ elements, IsInt a) →
      (elements.map decimal).foldlM
        (fun state token => (lexicalCast token).map (take state)) state =
          some (elements.foldl take state) := by
    intro elements
    induction elements with
    | nil => exact fun state _ => rfl
    | cons element elements ih =>
        intro state fits
        obtain ⟨first, later⟩ := List.forall_mem_cons.mp fits
        rw [List.map_cons, List.foldlM_cons, lexicalCast_decimal first, Option.map_some,
          List.foldl_cons]
        exact ih (take state element) later
  rw [readTokens, getline_line (newline_not_mem_separated before last)]
  simp only [tokens_separated, taken _ state fits, Option.map_some]

theorem readTokens_nil {σ : Type*} (take : σ → Int → σ) (state : σ) :
    readTokens take state [] = some (state, []) := by
  simp [readTokens, getline, tokens]

namespace IntSet

theorem write_snoc {before : List Int} {last : Int}
    (sorted : (before ++ [last]).Pairwise (· < ·)) :
    write ⟨before ++ [last], sorted⟩ = separated before last := by
  have inner : ∀ (elements : List Int) (start : Nat) (stream : List Char),
      start + elements.length ≤ before.length →
      (elements.zipIdx start).foldl (writeTurn before.length) stream =
        stream ++ elements.flatMap fun element => decimal element ++ [','] := by
    intro elements
    induction elements with
    | nil => simp
    | cons element elements ih =>
        intro start stream inside
        rw [List.length_cons] at inside
        have comma : writeTurn before.length stream (element, start) =
            stream ++ decimal element ++ [','] := if_pos (by simp only; omega)
        rw [List.zipIdx_cons, List.foldl_cons, comma, ih _ _ (by omega)]
        simp
  have filled : (before ++ [last]).isEmpty = false := by simp
  have count : (before ++ [last]).length - 1 = before.length := by simp
  simp only [write, filled, count, Bool.false_eq_true, if_false]
  rw [List.zipIdx_append, List.foldl_append, inner before 0 [] (by omega)]
  simp [separated, writeTurn]

theorem insertElement_last {x : Int} {elements : List Int} (last : ∀ y ∈ elements, y < x) :
    insertElement x elements = elements ++ [x] := by
  induction elements with
  | nil => rfl
  | cons y rest ih =>
      obtain ⟨first, later⟩ := List.forall_mem_cons.mp last
      rw [insertElement, if_neg (by omega), if_neg (by omega), ih later]
      rfl

theorem eq_of_elements {set other : IntSet} (same : set.elements = other.elements) :
    set = other := by
  cases set
  cases other
  cases same
  rfl

theorem foldl_insert (set : IntSet) : set.elements.foldl insert empty = set := by
  have run : ∀ (elements : List Int) (start : IntSet),
      (start.elements ++ elements).Pairwise (· < ·) →
      (elements.foldl insert start).elements = start.elements ++ elements := by
    intro elements
    induction elements with
    | nil => simp
    | cons element elements ih =>
        intro start sorted
        have placed : (start.insert element).elements = start.elements ++ [element] :=
          insertElement_last fun y member =>
            (List.pairwise_append.mp sorted).2.2 y member element List.mem_cons_self
        rw [List.append_cons, ← placed] at sorted ⊢
        exact ih (start.insert element) sorted
  exact eq_of_elements (run set.elements empty set.sorted)

end IntSet

namespace IntVector

theorem write_from (before : List Int) (last : Int) :
    ∀ (done : List Int) (stream : List Char) (fuel : Nat),
      (done ++ before ++ [last]).length < 65536 → before.length + 1 < fuel →
      Counter.loop () 65536 (done ++ before ++ [last]).length (writeTurn (done ++ before ++ [last]))
        fuel done.length stream = .ok (stream ++ separated before last) := by
  induction before with
  | nil =>
      intro done stream fuel few enough
      obtain ⟨fuel, rfl⟩ : ∃ rest, fuel = rest + 2 := ⟨fuel - 2, by simp at enough; omega⟩
      have length : (done ++ [] ++ [last]).length = done.length + 1 := by simp
      have turn : writeTurn (done ++ [] ++ [last]) done.length stream =
          .ok (.next (stream ++ decimal last)) := by
        simp [writeTurn]
      rw [length] at few ⊢
      rw [Counter.loop, if_pos (Nat.lt_succ_self _), turn]
      simp only [Nat.mod_eq_of_lt few]
      rw [Counter.loop, if_neg (Nat.lt_irrefl _)]
      rfl
  | cons element before ih =>
      intro done stream fuel few enough
      obtain ⟨fuel, rfl⟩ : ∃ rest, fuel = rest + 1 := ⟨fuel - 1, by omega⟩
      rw [List.length_cons] at enough
      have shifted : done ++ element :: before ++ [last] = done ++ [element] ++ before ++ [last] := by
        simp
      have turn : writeTurn (done ++ element :: before ++ [last]) done.length stream =
          .ok (.next (stream ++ decimal element ++ [','])) := by
        simp [writeTurn]
      have inside : done.length < (done ++ element :: before ++ [last]).length := by simp
      have next := ih (done ++ [element]) (stream ++ decimal element ++ [',']) fuel
        (shifted ▸ few) (by omega)
      have index : (done ++ [element]).length = done.length + 1 := by simp
      rw [Counter.loop, if_pos inside, turn]
      simp only [Nat.mod_eq_of_lt (show done.length + 1 < 65536 by omega)]
      rw [shifted, ← index, next]
      simp [separated]

end IntVector

theorem IntSet.read_write (set : IntSet) (ints : ∀ x ∈ set, IsInt x) :
    read empty (write set) = some (set, []) := by
  rcases set with ⟨elements, sorted⟩
  rcases List.eq_nil_or_concat' elements with rfl | ⟨before, last, rfl⟩
  · exact readTokens_nil insert empty
  · rw [write_snoc, read, readTokens_separated insert empty before last ints]
    exact congrArg (fun set => some (set, [])) (foldl_insert ⟨before ++ [last], sorted⟩)

theorem IntVector.read_write (vector : IntVector) (ints : ∀ x ∈ vector, IsInt x)
    (few : vector.length < 65536) :
    ∃ text, (∀ fuel, vector.length < fuel → write fuel vector = .ok text) ∧
      read [] text = some (vector, []) := by
  rcases List.eq_nil_or_concat' vector with rfl | ⟨before, last, rfl⟩
  · refine ⟨[], fun fuel enough => ?_, readTokens_nil _ _⟩
    obtain ⟨fuel, rfl⟩ : ∃ rest, fuel = rest + 1 := ⟨fuel - 1, by rw [List.length_nil] at enough; omega⟩
    rfl
  · refine ⟨separated before last, fun fuel enough => ?_, ?_⟩
    · rw [List.length_append, List.length_singleton] at enough
      exact write_from before last [] [] fuel few enough
    · have pushed : ∀ elements start : IntVector,
          elements.foldl (fun vector element => vector ++ [element]) start = start ++ elements := by
        intro elements
        induction elements with
        | nil => simp
        | cons element elements ih =>
            intro start
            rw [List.foldl_cons, ih, List.append_assoc, List.singleton_append]
      rw [read, readTokens_separated _ _ _ _ ints, pushed, List.nil_append]

/-- What is written is read back, for sets of any size and for vectors the index can count. -/
theorem features_survive (set : IntSet) (members : ∀ x ∈ set, IsInt x) (vector : IntVector)
    (ints : ∀ x ∈ vector, IsInt x) (few : vector.length < 65536) :
    IntSet.read IntSet.empty set.write = some (set, []) ∧
      ∃ text, (∀ fuel, vector.length < fuel → IntVector.write fuel vector = .ok text) ∧
        IntVector.read [] text = some (vector, []) :=
  ⟨set.read_write members, IntVector.read_write vector ints few⟩

theorem features_survive_signed :
    IntSet.read IntSet.empty (IntSet.write ⟨[-20, 7], by decide⟩) = some (⟨[-20, 7], by decide⟩, []) ∧
      ∃ text, (∀ fuel, 2 < fuel → IntVector.write fuel [3, -1] = .ok text) ∧
        IntVector.read [] text = some ([3, -1], []) :=
  features_survive ⟨[-20, 7], by decide⟩ (by decide) [3, -1] (by decide) (by decide)

end RlAqs
