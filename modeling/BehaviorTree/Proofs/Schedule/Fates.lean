/-
What becomes of a scheduled task.

Tasks are told apart by the calls that scheduled them: two may be alike. A task leaves the
schedule with the first call that takes out what is due by some moment, its own moment or
a later one, or with a call that cancels its node, whichever comes first. Moments may go
backwards from call to call, and a task that is scheduled as cancelled never counts. What is
taken out at one call, and what is pending before it, are then told by the calls alone.
-/
import Mathlib.Data.List.Basic
import BehaviorTree.Schedule

namespace BehaviorTree.Schedule

inductive Call where
  | add (task : DeferredTask)
  | cancel (node : NodeId)
  | takeDue (now : Moment)
deriving DecidableEq, Repr

inductive Answer where
  | done
  /-- How many tasks were cancelled. -/
  | cancelled (count : Nat)
  | taken (tasks : List DeferredTask)
deriving DecidableEq, Repr

def call (s : Schedule) : Call → Schedule × Answer
  | .add task => (s.add task, .done)
  | .cancel node => (s.cancel node, .cancelled (s.cancelCount node))
  | .takeDue now => ((s.takeDue now).2, .taken (s.takeDue now).1)

/-- The schedule after the calls, empty before them. -/
def after (calls : List Call) : Schedule := calls.foldl (fun s c => (s.call c).1) {}

/-- The answer to the call at place `j`. -/
def answer? (calls : List Call) (j : Nat) : Option Answer :=
  calls[j]?.map fun c => ((after (calls.take j)).call c).2

/-! ## Fates, told by the calls -/

section Fates

variable (calls : List Call)

/-- The call at place `j` takes out what is due by the task's moment or a later one. -/
def Reaches (task : DeferredTask) (j : Nat) : Prop :=
  ∃ now, calls[j]? = some (.takeDue now) ∧ (task.due.tick < now.tick ∨
    task.due.tick = now.tick ∧ task.due.phase.rank ≤ now.phase.rank)

/-- The task was scheduled as cancelled, or its node is cancelled between `i` and `j`. -/
def Cancelled (task : DeferredTask) (i j : Nat) : Prop :=
  task.cancelled ∨ ∃ k, i < k ∧ k < j ∧ calls[k]? = some (.cancel task.progress.node)

/-- The call at `j` is the first to reach the task scheduled at `i`, which was not cancelled
before. -/
def ReturnedAt (j i : Nat) (task : DeferredTask) : Prop :=
  i < j ∧ Reaches calls task j ∧ (∀ k, i < k → k < j → ¬Reaches calls task k) ∧
    ¬Cancelled calls task i j

/-- The task scheduled at `i` was neither cancelled nor returned before the call at `j`. -/
def Outstanding (j i : Nat) (task : DeferredTask) : Prop :=
  i < j ∧ ¬Cancelled calls task i j ∧ ∀ k, k < j → ¬ReturnedAt calls k i task

/-- The tasks are those that were scheduled at the places with the property, in the order of
the places. -/
def Lists (P : Nat → DeferredTask → Prop) (tasks : List DeferredTask) : Prop :=
  ∃ entries : List (Nat × DeferredTask), entries.Pairwise (fun a b => a.1 < b.1) ∧
    (∀ i task, (i, task) ∈ entries ↔ calls[i]? = some (.add task) ∧ P i task) ∧
    entries.map Prod.snd = tasks

end Fates

variable {calls : List Call} {P Q : Nat → DeferredTask → Prop} {tasks : List DeferredTask}

namespace Lists

theorem congr (h : Lists calls P tasks)
    (hPQ : ∀ i task, calls[i]? = some (.add task) → (P i task ↔ Q i task)) :
    Lists calls Q tasks := by
  obtain ⟨entries, hsort, hmem, hmap⟩ := h
  refine ⟨entries, hsort, fun i task => (hmem i task).trans ?_, hmap⟩
  exact and_congr_right fun hi => hPQ i task hi

theorem filter (h : Lists calls P tasks) (q : DeferredTask → Bool) :
    Lists calls (fun i task => P i task ∧ q task) (tasks.filter q) := by
  obtain ⟨entries, hsort, hmem, rfl⟩ := h
  refine ⟨entries.filter fun e => q e.2, hsort.filter _, fun i task => ?_, ?_⟩
  · rw [List.mem_filter, hmem, and_assoc]
  · rw [List.filter_map]
    rfl

end Lists

/-! ## What one call does -/

/-- The call leaves the task in the schedule. -/
def Call.leaves (task : DeferredTask) : Call → Bool
  | add _ => true
  | cancel node => task.progress.node ≠ node
  | takeDue now => !task.due.notAfter now

/-- What the call puts into the schedule. -/
def Call.brings : Call → List DeferredTask
  | add task => if task.cancelled then [] else [task]
  | _ => []

theorem pending_call (s : Schedule) (c : Call) :
    (s.call c).1.pending = s.pending.filter (Call.leaves · c) ++ c.brings := by
  cases c with
  | add task => simp [call, pending_add, Call.leaves, Call.brings]
  | cancel node => simp [call, pending_cancel, Call.leaves, Call.brings]
  | takeDue now => simp [call, pending_takeDue, Call.leaves, Call.brings]

theorem mem_brings {c : Call} {task : DeferredTask} :
    task ∈ c.brings ↔ c = .add task ∧ task.cancelled = false := by
  cases c with
  | cancel | takeDue => simp [Call.brings]
  | add new =>
    cases hn : new.cancelled
    · simp only [Call.brings, hn, Bool.false_eq_true, if_false, List.mem_singleton, Call.add.injEq]
      exact ⟨fun h => ⟨h.symm, h ▸ hn⟩, fun h => h.1.symm⟩
    · simp only [Call.brings, hn, if_true, List.not_mem_nil, Call.add.injEq, false_iff]
      rintro ⟨rfl, hcan⟩
      rw [hn] at hcan
      cases hcan

/-- What a call brings was scheduled after all that was there before. -/
theorem Lists.brings (h : Lists calls P tasks) {j : Nat} {c : Call} (hj : calls[j]? = some c)
    (hP : ∀ i task, P i task → i < j) :
    Lists calls (fun i task => P i task ∨ i = j ∧ task.cancelled = false) (tasks ++ c.brings) := by
  obtain ⟨entries, hsort, hmem, rfl⟩ := h
  refine ⟨entries ++ c.brings.map (j, ·), List.pairwise_append.2 ⟨hsort, ?_, ?_⟩, fun i t => ?_, ?_⟩
  · cases c with
    | cancel | takeDue => exact .nil
    | add new => cases hn : new.cancelled <;> simp [Call.brings, hn]
  · intro e he x hx
    obtain ⟨t, -, rfl⟩ := List.mem_map.1 hx
    exact hP e.1 e.2 ((hmem e.1 e.2).1 he).2
  · have hnew : (i, t) ∈ c.brings.map (j, ·) ↔
        calls[i]? = some (.add t) ∧ i = j ∧ t.cancelled = false := by
      simp only [List.mem_map, Prod.mk.injEq, mem_brings]
      constructor
      · rintro ⟨t, ⟨rfl, hcan⟩, rfl, rfl⟩
        exact ⟨hj, rfl, hcan⟩
      · rintro ⟨hi, rfl, hcan⟩
        rw [hj] at hi
        exact ⟨t, ⟨Option.some.inj hi, hcan⟩, rfl, rfl⟩
    rw [List.mem_append, hmem, hnew, and_or_left]
  · simp [Function.comp_def]

theorem after_take_succ {j : Nat} {c : Call} (hj : calls[j]? = some c) :
    after (calls.take (j + 1)) = ((after (calls.take j)).call c).1 := by
  rw [List.take_add_one, hj, after, List.foldl_append]
  rfl

/-! ## What a run of calls does -/

/-- No call between `i` and `j` takes the task out or cancels it. -/
def Lasts (calls : List Call) (j i : Nat) (task : DeferredTask) : Prop :=
  i < j ∧ task.cancelled = false ∧
    ∀ k c, i < k → k < j → calls[k]? = some c → Call.leaves task c

theorem lasts_succ {j i : Nat} {c : Call} {task : DeferredTask} (hj : calls[j]? = some c) :
    Lasts calls (j + 1) i task ↔
      Lasts calls j i task ∧ Call.leaves task c ∨ i = j ∧ task.cancelled = false := by
  constructor
  · rintro ⟨hi, hcan, hall⟩
    rcases Nat.lt_or_eq_of_le (Nat.le_of_lt_succ hi) with hi | rfl
    · exact .inl ⟨⟨hi, hcan, fun k x hk hkj => hall k x hk (Nat.lt_succ_of_lt hkj)⟩,
        hall j c hi (Nat.lt_succ_self j) hj⟩
    · exact .inr ⟨rfl, hcan⟩
  · rintro (⟨⟨hi, hcan, hall⟩, hc⟩ | ⟨rfl, hcan⟩)
    · refine ⟨Nat.lt_succ_of_lt hi, hcan, fun k x hk hkj hx => ?_⟩
      rcases Nat.lt_or_eq_of_le (Nat.le_of_lt_succ hkj) with hkj | rfl
      · exact hall k x hk hkj hx
      · rw [hj] at hx
        exact Option.some.inj hx ▸ hc
    · exact ⟨Nat.lt_succ_self i, hcan, fun k _ hk hki => absurd hki (by omega)⟩

/-- Before each call the schedule holds what lasted up to it. -/
theorem lists_lasts {j : Nat} (hj : j ≤ calls.length) :
    Lists calls (Lasts calls j) (after (calls.take j)).pending := by
  induction j with
  | zero => exact ⟨[], .nil, by simp [Lasts], rfl⟩
  | succ j ih =>
    obtain ⟨c, hc⟩ : ∃ c, calls[j]? = some c := ⟨_, List.getElem?_eq_getElem hj⟩
    have hleft := (ih (Nat.le_of_succ_le hj)).filter (Call.leaves · c)
    rw [after_take_succ hc, pending_call]
    exact (hleft.brings hc fun i task h => h.1.1).congr fun i task _ => (lasts_succ hc).symm

/-! ## Fates -/

section Fates

variable {i j k : Nat} {task : DeferredTask}

theorem reaches_iff {now : Moment} (hj : calls[j]? = some (.takeDue now)) :
    Reaches calls task j ↔ task.due.notAfter now := by
  rw [Moment.notAfter_iff, Reaches]
  constructor
  · rintro ⟨now', hnow, hle⟩
    rw [hj] at hnow
    rwa [Call.takeDue.inj (Option.some.inj hnow)]
  · exact fun hle => ⟨now, hj, hle⟩

theorem Cancelled.mono (h : Cancelled calls task i j) (hjk : j ≤ k) : Cancelled calls task i k :=
  h.imp_right fun ⟨l, hil, hlj, hl⟩ => ⟨l, hil, Nat.lt_of_lt_of_le hlj hjk, hl⟩

theorem lasts_iff : Lasts calls j i task ↔
    i < j ∧ ¬Cancelled calls task i j ∧ ∀ k, i < k → k < j → ¬Reaches calls task k := by
  constructor
  · rintro ⟨hi, hcan, hall⟩
    refine ⟨hi, ?_, fun k hik hkj hk => ?_⟩
    · rintro (hc | ⟨k, hik, hkj, hk⟩)
      · rw [hcan] at hc
        cases hc
      · simpa [Call.leaves] using hall k _ hik hkj hk
    · obtain ⟨now, hnow, -⟩ := id hk
      have hleaves := hall k _ hik hkj hnow
      simp [Call.leaves, (reaches_iff hnow).1 hk] at hleaves
  · rintro ⟨hi, hcan, hall⟩
    refine ⟨hi, by simpa using fun hc => hcan (.inl hc), fun k c hik hkj hk => ?_⟩
    cases c with
    | add => rfl
    | cancel node =>
      have hne : task.progress.node ≠ node := fun hn => hcan (.inr ⟨k, hik, hkj, hn ▸ hk⟩)
      simpa [Call.leaves] using hne
    | takeDue now =>
      have hnot := fun hle => hall k hik hkj ((reaches_iff hk).2 hle)
      simpa [Call.leaves] using hnot

theorem returnedAt_iff :
    ReturnedAt calls j i task ↔ Lasts calls j i task ∧ Reaches calls task j := by
  rw [lasts_iff, ReturnedAt]
  tauto

theorem outstanding_iff : Outstanding calls j i task ↔ Lasts calls j i task := by
  rw [lasts_iff]
  constructor
  · rintro ⟨hi, hcan, hret⟩
    refine ⟨hi, hcan, fun k => ?_⟩
    -- the first call to reach the task would have returned it
    induction k using Nat.strongRecOn with
    | _ k ih =>
      intro hik hkj hk
      exact hret k hkj ⟨hik, hk, fun l hil hlk => ih l hlk hil (Nat.lt_trans hlk hkj),
        fun hc => hcan (hc.mono (Nat.le_of_lt hkj))⟩
  · rintro ⟨hi, hcan, hall⟩
    exact ⟨hi, hcan, fun k hkj hk => hall k hk.1 hkj hk.2.1⟩

theorem lists_outstanding (hj : j ≤ calls.length) :
    Lists calls (Outstanding calls j) (after (calls.take j)).pending :=
  (lists_lasts hj).congr fun _ _ _ => outstanding_iff.symm

theorem ReturnedAt.unique (h : ReturnedAt calls j i task) (h' : ReturnedAt calls k i task) :
    j = k := by
  rcases Nat.lt_trichotomy j k with hlt | he | hgt
  · exact absurd h.2.1 (h'.2.2.1 j h.1 hlt)
  · exact he
  · exact absurd h'.2.1 (h.2.2.1 k h'.1 hgt)

end Fates

/-- Every task that is scheduled is returned at the first call that reaches it, and at no other,
unless it is cancelled first, and then it never is. Until then it is pending; tasks are returned
and pending in the order in which they were scheduled. -/
theorem fates (calls : List Call) :
    (∀ j now, calls[j]? = some (.takeDue now) → ∃ tasks,
      answer? calls j = some (.taken tasks) ∧ Lists calls (ReturnedAt calls j) tasks) ∧
    (∀ j k i task, ReturnedAt calls j i task → ReturnedAt calls k i task → j = k) ∧
    (∀ j, j ≤ calls.length → Lists calls (Outstanding calls j) (after (calls.take j)).pending) ∧
    (∀ j node, calls[j]? = some (.cancel node) → ∃ tasks,
      answer? calls j = some (.cancelled tasks.length) ∧
        Lists calls (fun i task => Outstanding calls j i task ∧ task.progress.node = node)
          tasks) := by
  have hlt : ∀ {j : Nat} {c : Call}, calls[j]? = some c → j ≤ calls.length := fun hj =>
    Nat.le_of_lt (List.getElem?_eq_some_iff.1 hj).1
  refine ⟨fun j now hj => ?_, fun j k i task h h' => h.unique h', fun j hj => lists_outstanding hj,
    fun j node hj => ?_⟩
  · refine ⟨((after (calls.take j)).takeDue now).1, by simp [answer?, hj, call], ?_⟩
    rw [takeDue_fst]
    refine ((lists_lasts (hlt hj)).filter (·.due.notAfter now)).congr fun i task _ => ?_
    rw [returnedAt_iff, reaches_iff hj]
  · refine ⟨(after (calls.take j)).pending.filter (·.progress.node = node), ?_, ?_⟩
    · simp [answer?, hj, call, cancelCount, List.countP_eq_length_filter]
    · have hall := lists_outstanding (hlt hj)
      refine (hall.filter (·.progress.node = node)).congr fun i task _ => ?_
      rw [decide_eq_true_iff]

/-- A task that is due at tick 5, before which a moment passes. -/
example :
    let task : DeferredTask := { progress := ⟨⟨0⟩, 1⟩, due := ⟨5, .update⟩, success := true }
    let calls :=
      [.takeDue ⟨7, .update⟩, .add task, .takeDue ⟨4, .lateUpdate⟩, .takeDue ⟨5, .update⟩]
    (answer? calls 0, answer? calls 2, answer? calls 3) =
      (some (.taken []), some (.taken []), some (.taken [task])) := by decide

end BehaviorTree.Schedule
