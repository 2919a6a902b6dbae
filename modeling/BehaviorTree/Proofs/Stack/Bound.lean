/-
The nodes of a stack are bound.

A node is bound before its first execution and it stays bound. A node that called a child, that
waits or that has a result to receive was executed, so on every stack all nodes are bound but
for one on top that has yet to be executed.
-/
import BehaviorTree.Proofs.Stack.Marks
import BehaviorTree.Proofs.World.Bound

namespace BehaviorTree.Stack

variable {σ : Type} [Node σ] {s s' : Stack} {w w' : World σ} {node top : NodeId}
  {rest : List NodeId}

/-- Every node of the stack is bound, but for a node on top that has yet to be executed. -/
structure Bounded (s : Stack) (w : World σ) : Prop where
  below : ∀ n ∈ s.nodes.tail, w.Bound n
  top : s.isWaiting ∨ s.state = .receiving → ∀ n, s.top? = some n → w.Bound n

omit [Node σ] in
theorem Bounded.elsewhere (h : s.Bounded w) (hw : w.Binds w') : s.Bounded w' :=
  ⟨fun n hn => hw.bound n (h.below n hn), fun hs n hn => hw.bound n (h.top hs n hn)⟩

omit [Node σ] in
theorem Bounded.fields (h : s.Bounded w) (hn : s'.nodes = s.nodes) (hst : s'.state = s.state) :
    s'.Bounded w := by
  refine ⟨by rw [hn]; exact h.below, fun hs n htop => h.top ?_ n (by simpa [top?, hn] using htop)⟩
  simpa [isWaiting, hst] using hs

omit [Node σ] in
theorem bounded_of_all (h : ∀ n ∈ s.nodes, w.Bound n) : s.Bounded w :=
  ⟨fun n hn => h n (List.mem_of_mem_tail hn), fun _ n hn => h n (List.mem_of_head? hn)⟩

omit [Node σ] in
/-- A stack on which only the top may not be bound, and that does not go by it. -/
theorem bounded_of_below (hs : s.isWaiting = false) (h : ∀ n ∈ s.nodes.tail, w.Bound n)
    (hr : s.state ≠ .receiving := by rintro ⟨⟩) : s.Bounded w :=
  ⟨h, fun hw => absurd hw (by simp [hs, hr])⟩

theorem complete_bounded {ok : Bool} (hn : s.nodes = node :: rest)
    (h : ∀ n ∈ s.nodes, w.Bound n) :
    (s.complete w node ok).after.Bounded (s.complete w node ok).world := by
  cases hw : w.stop node with
  | error e =>
    simp only [complete, hw]
    exact bounded_of_all h
  | ok w' =>
    rw [complete_eq ok hn hw]
    refine bounded_of_all fun n hm => ?_
    have hb := (World.Binds.stop hw).bound n (h n (by rw [hn]; exact List.mem_cons_of_mem node hm))
    exact hb

theorem apply_bounded {d : Dispatch} (hn : s.nodes = node :: rest) (hb : ∀ n ∈ rest, w.Bound n)
    (hd : (∃ e, d = .bindFailed e) ∨ w.Bound node) :
    (s.apply w node d).after.Bounded (s.apply w node d).world := by
  have hall : ∀ {status calls}, d = .answered status calls → ∀ n ∈ s.nodes, w.Bound n := by
    rintro status calls rfl n hm
    rw [hn] at hm
    rcases List.mem_cons.1 hm with rfl | hm
    · exact hd.resolve_left (by rintro ⟨_, ⟨⟩⟩)
    · exact hb n hm
  match d with
  | .bindFailed e =>
    refine bounded_of_below rfl ?_
    simp only [apply, bindFailed, halt, hn, List.tail_cons]
    exact hb
  | .answered _ (_ :: _ :: _) => exact bounded_of_all (hall rfl)
  | .answered status [child] =>
    have hs := bounded_of_all (hall rfl)
    simp only [apply, call]
    split
    · exact hs
    split
    · exact hs
    split
    · exact hs
    next hr _ hchild =>
    simp only [ne_eq, Decidable.not_not] at hr
    subst hr
    rw [settleStatus_noReturn]
    · exact bounded_of_below rfl (hall rfl)
    · rintro ⟨⟩
      exact hchild (by simp [Stack.contains, hn])
  | .answered status [] =>
    have hs := hall rfl
    cases status with
    | noReturn =>
      simp only [apply, settleStatus]
      split <;> exact bounded_of_all hs
    | success | failed => exact complete_bounded hn hs
    | wait | waitUntilNextUpdate => exact bounded_of_all hs
    | error => exact bounded_of_all hs

theorem step_bounded (hn : s.nodes = top :: rest) (h : s.Bounded w) :
    (s.step w top).after.Bounded (s.step w top).world := by
  have hrest : ∀ n ∈ rest, w.Bound n := by simpa [hn] using h.below
  simp only [step]
  split
  · exact h.fields rfl rfl
  split
  · next hst =>
    split
    · exact h.fields rfl rfl
    split
    · exact h.fields rfl rfl
    · next hw =>
      have hbinds := World.Binds.receive hw
      exact apply_bounded hn (fun n hm => hbinds.bound n (hrest n hm))
        (.inr (hbinds.bound top (h.top (.inr hst) top (by simp [top?, hn]))))
  · split
    · exact bounded_of_below rfl h.below
    · next hw =>
      obtain ⟨hbinds, hb⟩ := World.execute_binds hw
      exact apply_bounded hn (fun n hm => hbinds.bound n (hrest n hm)) hb

theorem drive_bounded (budget : Nat) (h : s.Bounded w) :
    (drive budget s w).after.Bounded (drive budget s w).world := by
  induction budget generalizing s w with
  | zero =>
    rw [drive]
    split
    · exact h
    split
    · exact h
    split
    · exact h
    · have hpaused : s.pause.Bounded w := h.fields rfl rfl
      exact hpaused.elsewhere (.of_graph rfl)
  | succ budget ih =>
    rw [drive]
    split
    · exact h
    next hn =>
    split
    · exact h
    split
    · exact h
    have hstep := step_bounded hn h
    simp only
    split
    · exact hstep
    · exact ih (hstep.fields rfl rfl)

theorem run_bounded (h : s.Bounded w) : (s.run w).after.Bounded (s.run w).world := by
  have hd := drive_bounded s.stepBudget (s := { s with last := none }) (h.fields rfl rfl)
  simp only [run]
  split
  · exact bounded_of_below rfl hd.below
  split
  · exact bounded_of_below rfl hd.below
  · exact hd.fields rfl rfl

/-- A stack with a new head. -/
theorem start_bounded (h : s.Bounded w) (head : NodeId) :
    (s.start w head).after.Bounded (s.start w head).world := by
  unfold start
  split
  · exact h
  next hs =>
  split
  · exact h
  have hn : s.nodes = [] := by simp_all [isEmpty]
  have hst : s.state = .ready := by simp_all
  exact run_bounded (bounded_of_below (by simp [push, isWaiting, hst, StackState.isWaiting])
    (by simp [push, hn]) (by simp [push, hst]))

theorem receiveReturn_bounded (h : s.Bounded w) (ok : Bool) :
    (s.receiveReturn w ok).after.Bounded (s.receiveReturn w ok).world := by
  unfold receiveReturn
  split
  · exact h
  next node hsus =>
  obtain ⟨hw, rest, hn⟩ := suspended?_eq_some hsus
  have hall : ∀ n ∈ s.nodes, w.Bound n := by
    intro n hm
    rw [hn] at hm
    rcases List.mem_cons.1 hm with rfl | hm
    · exact h.top (.inl hw) n (by simp [top?, hn])
    · exact h.below n (by rwa [hn])
  have hc : (s.complete w node ok).after.Bounded (s.complete w node ok).world :=
    complete_bounded hn hall
  split
  · next hp => rw [hp] at hc; exact hc
  · next hp => rw [hp] at hc; exact run_bounded (hc.fields rfl rfl)

theorem receiveStatus_bounded (h : s.Bounded w) (status : Status) :
    (s.receiveStatus w status).after.Bounded (s.receiveStatus w status).world := by
  unfold receiveStatus
  split
  · exact receiveReturn_bounded h _
  split
  · exact h
  next node hsus =>
  obtain ⟨hw, -⟩ := suspended?_eq_some hsus
  split
  · exact ⟨h.below, fun _ => h.top (.inl hw)⟩
  · exact ⟨h.below, fun _ => h.top (.inl hw)⟩
  · exact bounded_of_below rfl h.below
  · exact h

theorem unwind_bounded (label : StackLabel) (stopAt : Option NodeId) (nodes : List NodeId)
    (h : ∀ n ∈ nodes.tail, w.Bound n) :
    ∀ n ∈ (unwind label stopAt nodes w).after.tail, (unwind label stopAt nodes w).world.Bound n := by
  induction nodes generalizing w with
  | nil => exact h
  | cons top rest ih =>
    rw [unwind]
    split
    · exact h
    split
    · exact h
    · next hw =>
      exact ih fun n hm => (World.Binds.interrupt hw).bound n (h n (List.mem_of_mem_tail hm))

theorem breakTo_bounded (hs : s.Sound w) (h : s.Bounded w) (stopAt : Option NodeId) :
    (s.breakTo w stopAt).after.Bounded (s.breakTo w stopAt).world := by
  have hf := unwind_known s.label stopAt hs.known
  have hb := unwind_bounded s.label stopAt s.nodes h.below
  unfold breakTo
  split
  · exact h
  split
  · next hu => rw [hu] at hf; cases hf
  · next hu =>
    rw [hu] at hb
    exact bounded_of_below rfl hb

theorem perform_bounded (hs : s.Sound w) (h : s.Bounded w) (op : Operation) :
    (s.perform w op).after.Bounded (s.perform w op).world := by
  cases op with
  | start head => exact start_bounded h head
  | restart head =>
    show (s.restart w head).after.Bounded (s.restart w head).world
    unfold restart
    split
    · exact start_bounded (s := { s with state := .ready }) (bounded_of_below rfl h.below) head
    · exact start_bounded h head
  | run => exact run_bounded h
  | receiveReturn ok => exact receiveReturn_bounded h ok
  | receiveStatus status => exact receiveStatus_bounded h status
  | resumeNextUpdate =>
    show (s.resumeNextUpdate w).1.after.Bounded (s.resumeNextUpdate w).1.world
    unfold resumeNextUpdate
    split
    · exact run_bounded (bounded_of_below rfl h.below)
    · exact h
  | breakTo stopAt => exact breakTo_bounded hs h stopAt
  | terminate =>
    obtain ⟨w', hu⟩ := unwind_all s.label hs.known
    simp only [perform, terminate, breakTo, Option.filter_none, hu]
    exact bounded_of_below rfl (by simp)
  | forwardHook phase =>
    show (s.forwardHook w phase).after.Bounded (s.forwardHook w phase).world
    unfold forwardHook
    split
    · exact h
    next top _ =>
    split
    · exact h
    have hhook := h.elsewhere (World.Binds.hook w top phase)
    split
    · next hw => rw [hw] at hhook; exact hhook
    · next hw => rw [hw] at hhook; exact receiveStatus_bounded hhook _
    · next hw => rw [hw] at hhook; exact hhook
  | pause | resume | applyConfig _ => exact h.fields rfl rfl

theorem Act.binds {label : StackLabel} {heads : NodeId → Prop} {x y : List NodeId × World σ}
    (h : Act label heads x y) : x.2.Binds y.2 := by
  have hturn : ∀ {w w' : World σ} {node : NodeId} {d : Dispatch}, w.Turned node w' d →
      w.Binds w' := by
    rintro w w' node d (h | ⟨ok, h⟩)
    · exact (World.execute_binds h).1
    · exact .receive h
  have hmarked : ∀ (w : World σ) (tag : String) (label : StackLabel) (node : NodeId) (depth : Nat)
      (event : StackEvent), w.Binds ((w.trace tag label node depth).enqueue event) :=
    fun w tag label node depth event => .of_graph rfl
  cases h with
  | note => exact .of_graph rfl
  | turn h => exact hturn h
  | hook phase => exact .hook ..
  | ask => exact .ready ..
  | head => exact hmarked ..
  | call h => exact (hturn h).trans (hmarked ..)
  | leave h => exact (World.Binds.stop h).trans (hmarked ..)
  | rollBack h => exact (World.Binds.interrupt h).trans (hmarked ..)
  | finish => exact .of_graph rfl

theorem Acts.binds {label : StackLabel} {heads : NodeId → Prop} {x y : List NodeId × World σ}
    (h : Acts label heads x y) : x.2.Binds y.2 := by
  induction h with
  | refl => exact .refl _
  | tail _ h ih => exact ih.trans h.binds

end BehaviorTree.Stack
