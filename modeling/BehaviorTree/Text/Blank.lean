/-
White space, by the Unicode property `White_Space`: 25 code points.
-/

namespace BehaviorTree.Blank

/-- The ranges of the property, first and last code point of each. -/
def ranges : List (Nat × Nat) :=
  [(0x09, 0x0d), (0x20, 0x20), (0x85, 0x85), (0xa0, 0xa0), (0x1680, 0x1680), (0x2000, 0x200a),
   (0x2028, 0x2029), (0x202f, 0x202f), (0x205f, 0x205f), (0x3000, 0x3000)]

def isBlank (c : Char) : Bool := ranges.any fun (first, last) => first ≤ c.toNat && c.toNat ≤ last

/-- Without the blanks at both ends. -/
def trim (cs : List Char) : List Char :=
  ((cs.dropWhile isBlank).reverse.dropWhile isBlank).reverse

example : (ranges.map fun (first, last) => last + 1 - first).sum = 25 := by decide

/-- Blanks in front are dropped. -/
theorem trim_append_left {bs cs : List Char} (h : ∀ b ∈ bs, isBlank b) :
    trim (bs ++ cs) = trim cs := by
  rw [trim, List.dropWhile_append_of_pos h, trim]

/-- A text that neither starts nor ends with a blank is left alone. -/
theorem trim_eq_self {cs : List Char} (hh : ∀ c ∈ cs.head?, isBlank c = false)
    (hl : ∀ c ∈ cs.getLast?, isBlank c = false) : trim cs = cs := by
  cases cs with
  | nil => rfl
  | cons c r =>
    have hc : isBlank c = false := hh c (by simp)
    rw [trim, List.dropWhile_cons_of_neg (by simp [hc])]
    have hlast : ∀ d ∈ ((c :: r).reverse).head?, isBlank d = false := by
      rw [List.head?_reverse]
      exact hl
    cases hrev : (c :: r).reverse with
    | nil => simp at hrev
    | cons d s =>
      rw [List.dropWhile_cons_of_neg (by simp [hlast d (by simp [hrev])]), ← hrev,
        List.reverse_reverse]

end BehaviorTree.Blank
