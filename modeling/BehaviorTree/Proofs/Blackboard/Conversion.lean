/-
What conversion between types of values keeps.

A converted value is of the type that was asked for, and a value asked for as what it is stays
what it is. Three conversions lose nothing, so that converting back gives the value that
was converted: an integer and a truth value into text, which may be read back with blanks
around it; a truth value into a number; and a vector of the plane into one of space.
-/
import Mathlib.Data.List.TakeWhile
import BehaviorTree.Blackboard.Value

namespace BehaviorTree

namespace Blank

variable {cs before after : List Char}

/-- Blanks behind are dropped. -/
theorem trim_append_right (h : ∀ b ∈ after, isBlank b) : trim (cs ++ after) = trim cs := by
  have hnil : after.dropWhile isBlank = [] := List.dropWhile_eq_nil_iff.2 h
  rw [trim, trim, List.dropWhile_append]
  split
  · next he => rw [hnil, List.isEmpty_iff.1 he]
  · rw [List.reverse_append, List.dropWhile_append_of_pos fun b hb => h b (List.mem_reverse.1 hb)]

/-- A text without blanks is found among blanks. -/
theorem trim_surrounded (hb : ∀ c ∈ before, isBlank c) (ha : ∀ c ∈ after, isBlank c)
    (hcs : ∀ c ∈ cs, isBlank c = false) : trim (before ++ cs ++ after) = cs := by
  rw [trim_append_right ha, trim_append_left hb]
  exact trim_eq_self (fun c hc => hcs c (List.mem_of_mem_head? hc))
    fun c hc => hcs c (List.mem_of_mem_getLast? hc)

theorem isBlank_of_isDigit {c : Char} (h : c.isDigit) : isBlank c = false := by
  have hc : 48 ≤ c.toNat ∧ c.toNat ≤ 57 := Char.isDigit_iff_toNat.1 h
  simp [isBlank, ranges]
  omega

end Blank

namespace Reading

theorem sign_of_isDigit {c : Char} (h : c.isDigit) (cs : List Char) :
    sign (c :: cs) = (false, c :: cs) := by
  unfold sign
  split
  · next he => cases he; cases h
  · next he => cases he; cases h
  · rfl

theorem sign_toDigits (n : Nat) : sign (Nat.toDigits 10 n) = (false, Nat.toDigits 10 n) := by
  cases hds : Nat.toDigits 10 n with
  | nil => exact absurd hds Nat.toDigits_ne_nil
  | cons c cs =>
    refine sign_of_isDigit (Nat.isDigit_of_mem_toDigits (b := 10) (n := n) ?_ ?_ ?_) cs
    all_goals simp [hds]

/-- Sign and digits are read as the number they stand for, if it has 32 bits. -/
theorem int32?_of_sign {cs ds : List Char} {negative : Bool} {m : Nat} {n : Int32}
    (hs : sign cs = (negative, ds)) (hd : natural? ds = some m) (hn : signed negative m = n.toInt) :
    int32? cs = some n := by
  have hrange : Int32.minValue.toInt ≤ n.toInt ∧ n.toInt ≤ Int32.maxValue.toInt :=
    ⟨n.minValue_le_toInt, n.toInt_le⟩
  simp only [int32?, hs, hd, hn, if_pos hrange, Int32.ofInt_toInt]

/-- The characters of a number's text. -/
theorem toList_repr (i : Int) :
    (Int.repr i).toList = (if i < 0 then ['-'] else []) ++ Nat.toDigits 10 i.natAbs := by
  cases i with
  | ofNat m => simp [Int.repr]
  | negSucc m => simp [Int.repr]

theorem isBlank_of_mem_repr {i : Int} {c : Char} (h : c ∈ (Int.repr i).toList) :
    Blank.isBlank c = false := by
  rw [toList_repr] at h
  rcases List.mem_append.1 h with h | h
  · split at h
    · rw [List.mem_singleton.1 h]
      decide
    · cases h
  · exact Blank.isBlank_of_isDigit (Nat.isDigit_of_mem_toDigits (by omega) (by omega) h)

theorem int32?_repr (n : Int32) : int32? (Int.repr n.toInt).toList = some n := by
  rw [toList_repr]
  by_cases hn : n.toInt < 0
  · rw [if_pos hn]
    have hsign : sign ('-' :: Nat.toDigits 10 n.toInt.natAbs)
        = (true, Nat.toDigits 10 n.toInt.natAbs) := rfl
    refine int32?_of_sign hsign (natural?_toDigits _) ?_
    simp only [signed, if_true]
    omega
  · rw [if_neg hn]
    refine int32?_of_sign (sign_toDigits _) (natural?_toDigits _) ?_
    simp only [signed, Bool.false_eq_true, if_false]
    omega

end Reading

namespace Value

variable {v w : Value} {t : ValueType}

/-- What comes of a conversion is of the type that was asked for. -/
theorem type_of_convert (h : v.convert t = some w) : w.type = t := by
  unfold convert at h
  split at h
  · next ht => exact Option.some.inj h ▸ ht
  · split at h
    -- what is read from text is the one kind of conversion that can fail
    case h_8 | h_9 | h_10 =>
      obtain ⟨x, -, rfl⟩ := Option.map_eq_some_iff.1 h
      rfl
    case h_13 => cases h
    all_goals
      cases h
      rfl

theorem convert_self (v : Value) : v.convert v.type = some v := by
  simp [convert]

/-- The value has a text, from which it is read back, also with blanks around it. -/
def ReadsBack (v : Value) : Prop :=
  ∃ text, v.convert .string = some (string text) ∧ (string text).convert v.type = some v ∧
    ∀ before after : String, (∀ c ∈ before.toList, Blank.isBlank c) →
      (∀ c ∈ after.toList, Blank.isBlank c) →
        (string (before ++ text ++ after)).convert v.type = some v

theorem readsBack_of_surrounded (text : String) (ht : v.convert .string = some (string text))
    (h : ∀ before after : String, (∀ c ∈ before.toList, Blank.isBlank c) →
      (∀ c ∈ after.toList, Blank.isBlank c) →
        (string (before ++ text ++ after)).convert v.type = some v) : v.ReadsBack :=
  ⟨text, ht, by simpa using h "" "" (by simp) (by simp), h⟩

theorem readsBack_int (n : Int32) : (int n).ReadsBack := by
  refine readsBack_of_surrounded (int n).text rfl fun before after hb ha => ?_
  simp only [convert, type, text, String.toList_append]
  rw [Blank.trim_surrounded hb ha fun c => Reading.isBlank_of_mem_repr, Reading.int32?_repr]
  rfl

theorem readsBack_bool (b : Bool) : (bool b).ReadsBack := by
  have hletters : ∀ c ∈ (bool b).text.toList, Blank.isBlank c = false := by
    cases b <;> simp [text, Blank.isBlank, Blank.ranges]
  refine readsBack_of_surrounded (bool b).text rfl fun before after hb ha => ?_
  simp only [convert, type, String.toList_append]
  rw [Blank.trim_surrounded hb ha hletters]
  cases b <;> rfl

theorem bool_convert_number (b : Bool) (ht : t.isNumeric) :
    ((bool b).convert t).bind (·.convert .bool) = some (bool b) := by
  cases t with
  | int | float => cases b <;> rfl
  | bool | string | vector2 | vector3 | object => cases ht

theorem vector2_convert_vector3 (v : Vec2) :
    ((vector2 v).convert .vector3).bind (·.convert .vector2) = some (vector2 v) := rfl

/-- Conversion answers with the type that was asked for, and loses nothing where it widens. -/
theorem convert_keeps :
    (∀ (v w : Value) (t : ValueType), v.convert t = some w → w.type = t) ∧
    (∀ v : Value, v.convert v.type = some v) ∧
    (∀ n : Int32, (int n).ReadsBack) ∧
    (∀ b : Bool, (bool b).ReadsBack ∧ ∀ t : ValueType, t.isNumeric →
      ((bool b).convert t).bind (·.convert .bool) = some (bool b)) ∧
    (∀ v : Vec2, ((vector2 v).convert .vector3).bind (·.convert .vector2) = some (vector2 v)) :=
  ⟨fun _ _ _ => type_of_convert, convert_self, readsBack_int,
    fun b => ⟨readsBack_bool b, fun _ => bool_convert_number b⟩, vector2_convert_vector3⟩

end Value

end BehaviorTree
