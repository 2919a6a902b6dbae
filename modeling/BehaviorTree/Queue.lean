/-
A queue as two lists: what is pushed waits in `back`, newest first, until `front`
is used up. `toList` is the queue in order, and the lemmas speak of that alone.
-/

namespace BehaviorTree

structure Queue (α : Type) where
  front : List α := []
  back : List α := []
deriving Repr

namespace Queue

variable {α : Type}

instance : Inhabited (Queue α) := ⟨{}⟩

/-- The elements, the next one to leave first. -/
def toList (q : Queue α) : List α := q.front ++ q.back.reverse

def size (q : Queue α) : Nat := q.front.length + q.back.length

def push (q : Queue α) (a : α) : Queue α := { q with back := a :: q.back }

/-- The next element and the rest. -/
def pop? (q : Queue α) : Option (α × Queue α) :=
  match q.front with
  | a :: front => some (a, { q with front })
  | [] => match q.back.reverse with
    | [] => none
    | a :: front => some (a, { front })

theorem length_toList (q : Queue α) : q.toList.length = q.size := by
  simp [toList, size]

@[simp] theorem toList_push (q : Queue α) (a : α) : (q.push a).toList = q.toList ++ [a] := by
  simp [toList, push]

@[simp] theorem size_push (q : Queue α) (a : α) : (q.push a).size = q.size + 1 := by
  simp [size, push, Nat.add_assoc]

theorem toList_of_pop? {q rest : Queue α} {a : α} (h : q.pop? = some (a, rest)) :
    q.toList = a :: rest.toList := by
  unfold pop? at h
  split at h
  · rename_i front hf
    cases h
    simp [toList, hf]
  · rename_i hf
    split at h
    · cases h
    · rename_i front hb
      cases h
      simp [toList, hf, hb]

theorem size_of_pop? {q rest : Queue α} {a : α} (h : q.pop? = some (a, rest)) :
    q.size = rest.size + 1 := by
  rw [← length_toList, ← length_toList, toList_of_pop? h, List.length_cons]

theorem pop?_eq_none_iff {q : Queue α} : q.pop? = none ↔ q.toList = [] := by
  constructor
  · intro h
    unfold pop? at h
    split at h
    · cases h
    · rename_i hf
      split at h
      · rename_i hb
        simp [toList, hf, hb]
      · cases h
  · intro h
    match hp : q.pop? with
    | none => rfl
    | some (a, rest) => simp [toList_of_pop? hp] at h

/-- A queue without elements is the empty one. -/
theorem eq_empty {q : Queue α} (h : q.toList = []) : q = {} := by
  obtain ⟨front, back⟩ := q
  simp [toList] at h
  simp [h]

end Queue

end BehaviorTree
