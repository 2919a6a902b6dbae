/-
What an operation on a stack is made of.

Whatever a stack is asked to do, and whether it succeeds, its nodes and the world change
by a few kinds of acts only: a node is turned to, a node comes, a node goes, a service is
asked whether it is ready, something is noted. `Made` says so of each operation, so that
what every act keeps is kept by every operation. Acts know nothing of the states of the
stack.
-/
import BehaviorTree.Stack.Operations
import BehaviorTree.Proofs.World.Happening
import BehaviorTree.Proofs.World.Local

namespace BehaviorTree

variable {σ : Type} [Node σ]

/-- The node was turned to, to execute it or to hand it its child's result. -/
def World.Turned (w : World σ) (node : NodeId) (w' : World σ) (d : Dispatch) : Prop :=
  w.execute node = .ok (w', d) ∨ ∃ ok, w.receive node ok = .ok (w', d)

theorem World.Turned.keeps {w w' : World σ} {node : NodeId} {d : Dispatch}
    (h : w.Turned node w' d) : w.Keeps w' := by
  rcases h with h | ⟨_, h⟩
  · exact execute_keeps h
  · exact receive_keeps h

namespace Stack

/-- One act on the nodes of a stack, the top first, and the world. A node comes onto a
stack as its head, if `heads` allows it, or because the top node called it and nothing
else. Only a head is asked whether it is ready. -/
inductive Act (label : StackLabel) (heads : NodeId → Prop) :
    List NodeId × World σ → List NodeId × World σ → Prop
  | note {ns w r} (h : Record.happening? r = none) (ha : Record.about? r = none) :
      Act label heads (ns, w) (ns, w.record r)
  | turn {top rest w w' d} (h : w.Turned top w' d) :
      Act label heads (top :: rest, w) (top :: rest, w')
  | hook {top rest w} (phase : Phase) :
      Act label heads (top :: rest, w) (top :: rest, (w.hook top phase).1)
  | ask {ns w id} (h : heads id) : Act label heads (ns, w) (ns, (w.ready id).1)
  | head {w id} (h : heads id) (hc : w.graph.contains id) :
      Act label heads ([], w) ([id], w.entered label id 1)
  | call {top rest w w' child} (h : w.Turned top w' (.answered .noReturn [child]))
      (hc : w'.graph.contains child) (hn : child ∉ top :: rest) :
      Act label heads (top :: rest, w)
        (child :: top :: rest, w'.entered label child (rest.length + 2))
  | leave {top rest w w'} (h : w.stop top = .ok w') :
      Act label heads (top :: rest, w) (rest, w'.left label top rest.length)
  | rollBack {top rest w w'} (h : w.interrupt top = .ok w') :
      Act label heads (top :: rest, w) (rest, w'.left label top rest.length)
  | finish {w} (result : Option Bool) :
      Act label heads ([], w) ([], w.enqueue (.ended label result))

/-- Any number of acts. -/
def Acts (label : StackLabel) (heads : NodeId → Prop) :
    List NodeId × World σ → List NodeId × World σ → Prop :=
  Relation.ReflTransGen (Act label heads)

theorem Act.mono {label : StackLabel} {heads heads' : NodeId → Prop}
    {x y : List NodeId × World σ} (h : Act label heads x y) (hh : ∀ id, heads id → heads' id) :
    Act label heads' x y := by
  cases h with
  | note h ha => exact .note h ha
  | turn h => exact .turn h
  | hook phase => exact .hook phase
  | ask h => exact .ask (hh _ h)
  | head h hc => exact .head (hh _ h) hc
  | call h hc hn => exact .call h hc hn
  | leave h => exact .leave h
  | rollBack h => exact .rollBack h
  | finish result => exact .finish result

/-- The pass was made by acts of the stack `s` alone, in the world `w`. -/
structure Made (heads : NodeId → Prop) (s : Stack) (w : World σ) (p : Pass σ Stack) : Prop where
  label : p.after.label = s.label
  acts : Acts s.label heads (s.nodes, w) (p.after.nodes, p.world)

variable {heads : NodeId → Prop} {s s' : Stack} {w w' : World σ} {fault : Option StackError}

namespace Made

theorem refl (hl : s'.label = s.label) (hn : s'.nodes = s.nodes) :
    Made heads s w ⟨s', w, fault⟩ :=
  ⟨hl, by rw [← hn]; exact .refl⟩

theorem trans {p q : Pass σ Stack} (h : Made heads s w p) (h' : Made heads p.after p.world q) :
    Made heads s w q :=
  ⟨h'.label.trans h.label, h.acts.trans (h.label ▸ h'.acts)⟩

theorem single (hl : s'.label = s.label)
    (h : Act s.label heads (s.nodes, w) (s'.nodes, w')) : Made heads s w ⟨s', w', fault⟩ :=
  ⟨hl, .single h⟩

theorem mono {heads' : NodeId → Prop} {p : Pass σ Stack} (h : Made heads s w p)
    (hh : ∀ id, heads id → heads' id) : Made heads' s w p :=
  ⟨h.label, Relation.ReflTransGen.mono (fun _ _ ha => ha.mono hh) _ _ h.acts⟩

/-- Only the label and the nodes of a stack matter. -/
theorem of {p : Pass σ Stack} (h : Made heads s' w p) (hl : s'.label = s.label)
    (hn : s'.nodes = s.nodes) : Made heads s w p :=
  ⟨h.label.trans hl, by rw [← hl, ← hn]; exact h.acts⟩

/-- A change of the fields of the stack that is left. -/
theorem fields {p : Pass σ Stack} (h : Made heads s w p) (hl : s'.label = p.after.label)
    (hn : s'.nodes = p.after.nodes) : Made heads s w ⟨s', p.world, fault⟩ :=
  ⟨hl.trans h.label, by rw [hn]; exact h.acts⟩

end Made

theorem acts_note {label : StackLabel} (ns : List NodeId) (w : World σ) {r : Record}
    (hr : r.happening? = none) (ha : r.about? = none) :
    Acts label heads (ns, w) (ns, w.record r) :=
  .single (.note hr ha)

theorem Act.trace {label : StackLabel} {ns : List NodeId} {w : World σ} {tag : String}
    (h : IsQuiet tag) (stack : StackLabel) (node : Option NodeId) (value : Int) :
    Act label heads (ns, w) (ns, w.trace tag stack node value) :=
  .note (Record.happening?_traced h) rfl

theorem acts_trace {label : StackLabel} (ns : List NodeId) (w : World σ) {tag : String}
    (h : IsQuiet tag) (stack : StackLabel) (node : Option NodeId) (value : Int) :
    Acts label heads (ns, w) (ns, w.trace tag stack node value) :=
  .single (.trace h stack node value)

theorem acts_warn {label : StackLabel} (ns : List NodeId) (w : World σ) (message : String)
    (fields : List (String × String)) : Acts label heads (ns, w) (ns, w.warn message fields) :=
  acts_note ns w rfl rfl

theorem acts_report {label : StackLabel} (ns : List NodeId) (w : World σ) {d : Diagnostic}
    (h : d.kind ≠ .protocolViolation) : Acts label heads (ns, w) (ns, w.report d) :=
  acts_note ns w (by simp [Record.happening?, h]) rfl

/-! ## The parts of a pass -/

theorem errorResult_made (s : Stack) (w : World σ) (node : NodeId) (message : String) :
    Made heads s w (s.errorResult w node message) :=
  ⟨rfl, (acts_warn ..).trans <| (acts_report _ _ (by simp)).trans (acts_trace _ _ (by decide) ..)⟩

theorem bindFailed_made (s : Stack) (w : World σ) (node : NodeId) (e : VariableError) :
    Made heads s w (s.bindFailed w node e) :=
  ⟨rfl, (acts_warn ..).trans <| (acts_report _ _ (by simp)).trans (acts_trace _ _ (by decide) ..)⟩

theorem exhausted_made (s : Stack) (w : World σ) (node : NodeId) :
    Made heads s w (s.exhausted w node) :=
  ⟨rfl, (acts_warn ..).trans (acts_report _ _ (by simp))⟩

theorem invalidate_made (s : Stack) (w : World σ) (e : StackError) :
    Made heads s w (s.invalidate w e) :=
  ⟨rfl, (acts_warn ..).trans (acts_trace _ _ (by decide) ..)⟩

theorem finish_made {s : Stack} (w : World σ) (hs : s.nodes = []) :
    Made heads s w (s.finish w) := by
  have hf : ∀ w : World σ,
      Act s.label heads (s.nodes, w) (s.nodes, w.enqueue (.ended s.label s.result)) := by
    intro w
    rw [hs]
    exact .finish _
  exact ⟨rfl, (acts_trace _ _ (by decide) ..).tail (hf _)⟩

theorem complete_made {s : Stack} (w : World σ) {node : NodeId} {rest : List NodeId} (ok : Bool)
    (hs : s.nodes = node :: rest) : Made heads s w (s.complete w node ok) := by
  unfold complete
  split
  · exact .refl rfl rfl
  · next w' hw =>
    refine ⟨by simp [pop, hs], ?_⟩
    simp only [pop, hs]
    exact .head (.leave hw) (acts_trace _ _ (by decide) ..)

/-- Once a child lies on top, its caller has nothing more to do. -/
theorem settleStatus_noReturn {s : Stack} {w : World σ} {node : NodeId}
    (h : s.top? ≠ some node) : s.settleStatus w node .noReturn = ⟨s, w, none⟩ :=
  if_neg h

theorem settleStatus_made {s : Stack} (w : World σ) {node : NodeId} {rest : List NodeId}
    (status : Status) (hs : s.nodes = node :: rest) :
    Made heads s w (s.settleStatus w node status) := by
  cases status with
  | noReturn =>
    simp only [settleStatus]
    split <;> exact .refl rfl rfl
  | success | failed => exact complete_made w _ hs
  | wait | waitUntilNextUpdate => exact ⟨rfl, acts_trace _ _ (by decide) ..⟩
  | error => exact errorResult_made ..

/-- Turning to a node, and all that comes of it. -/
theorem apply_made {s : Stack} {w w' : World σ} {node : NodeId} {rest : List NodeId} {d : Dispatch}
    (h : w.Turned node w' d) (hs : s.nodes = node :: rest) :
    Made heads s w (s.apply w' node d) := by
  have ht : Act s.label heads (s.nodes, w) (s.nodes, w') := by rw [hs]; exact .turn h
  have hturn : Made heads s w ⟨s, w', none⟩ := .single rfl ht
  match d with
  | .bindFailed e => exact hturn.trans (bindFailed_made ..)
  | .answered status [] => exact hturn.trans (settleStatus_made _ _ hs)
  | .answered _ (_ :: _ :: _) => exact .single rfl ht
  | .answered status [child] =>
    simp only [apply, call]
    split
    · exact .single rfl ht
    split
    · exact .single rfl ht
    split
    · exact .single rfl ht
    next hr hc hn =>
    simp only [ne_eq, Decidable.not_not] at hr
    subst hr
    simp only [Bool.not_eq_true', Bool.not_eq_false] at hc
    have hn : child ∉ node :: rest := by simpa [Stack.contains, hs] using hn
    have hcall : Act s.label heads (s.nodes, w)
        (child :: s.nodes, w'.entered s.label child (s.depth + 1)) := by
      rw [hs, depth, hs]
      exact .call h hc hn
    rw [settleStatus_noReturn]
    · exact .single rfl hcall
    · rintro ⟨⟩
      exact hn List.mem_cons_self

theorem step_made {s : Stack} (w : World σ) {top : NodeId} {rest : List NodeId}
    (hs : s.nodes = top :: rest) : Made heads s w (s.step w top) := by
  simp only [step]
  split
  · exact .refl rfl rfl
  split
  · split
    · exact .refl rfl rfl
    split
    · exact .refl rfl rfl
    · next ok _ _ _ _ hw => exact .of (apply_made (.inr ⟨ok, hw⟩) hs) rfl rfl
  · split
    · exact .refl rfl rfl
    · next hw => exact .of (apply_made (.inl hw) hs) rfl rfl

theorem drive_made (budget : Nat) (s : Stack) (w : World σ) :
    Made heads s w (drive budget s w) := by
  induction budget generalizing s w with
  | zero =>
    rw [drive]
    split
    · exact .refl rfl rfl
    split
    · exact .refl rfl rfl
    split
    · exact .refl rfl rfl
    · exact exhausted_made ..
  | succ budget ih =>
    rw [drive]
    split
    · exact .refl rfl rfl
    next hs =>
    split
    · exact .refl rfl rfl
    split
    · exact .refl rfl rfl
    simp only
    split
    · exact step_made w hs
    · exact (step_made w hs).trans (.of (ih ..) rfl rfl)

theorem run_made (s : Stack) (w : World σ) : Made heads s w (s.run w) := by
  have h : Made heads s w (drive s.stepBudget { s with last := none } w) :=
    .of (drive_made ..) rfl rfl
  simp only [run]
  split
  · exact h.trans (.of (invalidate_made ..) rfl rfl)
  split
  · next he =>
    simp only [isEmpty, Bool.and_eq_true, List.isEmpty_iff] at he
    exact h.trans (.of (finish_made _ he.1) rfl rfl)
  · exact h.fields rfl rfl

/-! ## The operations of a host -/

theorem start_made (s : Stack) (w : World σ) (head : NodeId) :
    Made (· = head) s w (s.start w head) := by
  unfold start
  split
  · exact .refl rfl rfl
  next hs =>
  split
  · exact .refl rfl rfl
  next hc =>
  have he : s.nodes = [] := by
    simp only [isEmpty, Bool.or_eq_true, Bool.not_eq_true', not_or, List.isEmpty_eq_false_iff,
      ne_eq, Decidable.not_not] at hs
    exact hs.1.2
  have hp : Made (· = head) s w
      (({ s with result := none, parkedAt := none } : Stack).push w head) := by
    refine .single rfl ?_
    simp only [he, depth, List.length_nil]
    exact .head rfl (by simpa using hc)
  exact hp.trans (run_made ..)

theorem restart_made (s : Stack) (w : World σ) (head : NodeId) :
    Made (· = head) s w (s.restart w head) := by
  unfold restart
  split
  · exact .of (start_made ..) rfl rfl
  · exact start_made ..

theorem suspended?_eq_some {s : Stack} {node : NodeId} (h : s.suspended? = some node) :
    s.isWaiting ∧ ∃ rest, s.nodes = node :: rest := by
  unfold suspended? at h
  split at h
  · next hw => exact ⟨hw, List.head?_eq_some_iff.1 h⟩
  · cases h

theorem receiveReturn_made (s : Stack) (w : World σ) (ok : Bool) :
    Made heads s w (s.receiveReturn w ok) := by
  unfold receiveReturn
  split
  · exact .refl rfl rfl
  next node hs =>
  obtain ⟨-, rest, hn⟩ := suspended?_eq_some hs
  have hc : Made heads s w (s.complete w node ok) := complete_made w ok hn
  split
  · next hp => rw [hp] at hc; exact hc
  · next hp => rw [hp] at hc; exact hc.trans (.of (run_made ..) rfl rfl)

theorem receiveStatus_made (s : Stack) (w : World σ) (status : Status) :
    Made heads s w (s.receiveStatus w status) := by
  unfold receiveStatus
  split
  · exact receiveReturn_made ..
  split
  · exact .refl rfl rfl
  split
  · exact .refl rfl rfl
  · exact .refl rfl rfl
  · exact errorResult_made ..
  · exact .refl rfl rfl

theorem resumeNextUpdate_made (s : Stack) (w : World σ) :
    Made heads s w (s.resumeNextUpdate w).1 := by
  unfold resumeNextUpdate
  split
  · exact .of (run_made ..) rfl rfl
  · exact .refl rfl rfl

theorem unwind_acts (label : StackLabel) (stopAt : Option NodeId) (ns : List NodeId)
    (w : World σ) : Acts label heads (ns, w)
      ((unwind label stopAt ns w).after, (unwind label stopAt ns w).world) := by
  induction ns generalizing w with
  | nil => exact .refl
  | cons top rest ih =>
    rw [unwind]
    split
    · exact .refl
    split
    · exact .refl
    · next hw => exact .head (.rollBack hw) (ih _)

theorem breakTo_made (s : Stack) (w : World σ) (stopAt : Option NodeId) :
    Made heads s w (s.breakTo w stopAt) := by
  unfold breakTo
  split
  · exact .refl rfl rfl
  have h : Acts s.label heads (s.nodes, w) _ := unwind_acts s.label stopAt s.nodes w
  split
  · next hu => rw [hu] at h; exact ⟨rfl, h⟩
  · next hu => rw [hu] at h; exact ⟨rfl, h.trans (acts_trace _ _ (by decide) ..)⟩

theorem terminate_made (s : Stack) (w : World σ) : Made heads s w (s.terminate w) := by
  have h : Made heads s w (s.breakTo w none) := breakTo_made ..
  unfold terminate
  split
  · next hb => rw [hb] at h; exact h
  · next hb =>
    rw [hb] at h
    split
    · exact h.fields rfl rfl
    · exact ⟨h.label, h.acts.trans (acts_trace _ _ (by decide) ..)⟩

theorem forwardHook_made (s : Stack) (w : World σ) (phase : Phase) :
    Made heads s w (s.forwardHook w phase) := by
  unfold forwardHook
  split
  · exact .refl rfl rfl
  next top hs =>
  split
  · exact .refl rfl rfl
  obtain ⟨-, rest, hn⟩ := suspended?_eq_some hs
  have hh : Made heads s w ⟨s, (w.hook top phase).1, none⟩ :=
    .single rfl (by rw [hn]; exact .hook phase)
  split
  · next hw => rw [hw] at hh; exact hh.fields rfl rfl
  · next hw => rw [hw] at hh; exact hh.trans (receiveStatus_made ..)
  · next hw => rw [hw] at hh; exact hh

/-! ## What acts keep -/

theorem left_frame (w : World σ) (label : StackLabel) (node : NodeId) (depth : Nat) :
    w.Frame (w.left label node depth) :=
  (World.Keeps.trace ..).toFrame.trans (.enqueue ..)

theorem entered_frame (w : World σ) (label : StackLabel) (node : NodeId) (depth : Nat) :
    w.Frame (w.entered label node depth) :=
  (World.Keeps.trace ..).toFrame.trans (.enqueue ..)

theorem Act.frame {label : StackLabel} {x y : List NodeId × World σ} (h : Act label heads x y) :
    x.2.Frame y.2 := by
  cases h with
  | note hr => exact .record _ (Record.registration?_of_happening? hr)
  | turn ht => exact ht.keeps.toFrame
  | hook phase => exact (World.hook_keeps ..).toFrame
  | ask _ => exact (World.ready_keeps ..).toFrame
  | head _ _ => exact entered_frame ..
  | call ht _ _ => exact ht.keeps.toFrame.trans (entered_frame ..)
  | leave hw => exact (World.stop_keeps hw).toFrame.trans (left_frame ..)
  | rollBack hw => exact (World.interrupt_keeps hw).toFrame.trans (left_frame ..)
  | finish _ => exact .enqueue ..

theorem Acts.frame {label : StackLabel} {x y : List NodeId × World σ} (h : Acts label heads x y) :
    x.2.Frame y.2 := by
  induction h with
  | refl => exact .refl _
  | tail _ h ih => exact ih.trans h.frame

/-- What an act does to the nodes, and the event that tells of it. -/
inductive Change (label : StackLabel) (w : World σ) :
    List NodeId → List NodeId → List StackEvent → Prop
  | none {ns} : Change label w ns ns []
  | came {n ns} (hn : n ∉ ns) (hc : w.graph.contains n) : Change label w ns (n :: ns) [.pushed n]
  | went {n ns} : Change label w (n :: ns) ns [.popped n]
  | ended (result : Option Bool) : Change label w [] [] [.ended label result]

omit [Node σ] in
theorem toList_left (w : World σ) (label : StackLabel) (node : NodeId) (depth : Nat) :
    (w.left label node depth).events.toList = w.events.toList ++ [.popped node] :=
  Queue.toList_push _ _

omit [Node σ] in
theorem toList_entered (w : World σ) (label : StackLabel) (node : NodeId) (depth : Nat) :
    (w.entered label node depth).events.toList = w.events.toList ++ [.pushed node] :=
  Queue.toList_push _ _

theorem Act.change {label : StackLabel} {x y : List NodeId × World σ} (h : Act label heads x y) :
    ∃ events, Change label y.2 x.1 y.1 events ∧
      y.2.events.toList = x.2.events.toList ++ events := by
  cases h with
  | note _ => exact ⟨[], .none, (List.append_nil _).symm⟩
  | turn ht => exact ⟨[], .none, by rw [ht.keeps.events, List.append_nil]⟩
  | hook phase => exact ⟨[], .none, by rw [(World.hook_keeps ..).events, List.append_nil]⟩
  | ask _ => exact ⟨[], .none, by rw [(World.ready_keeps ..).events, List.append_nil]⟩
  | head _ hc => exact ⟨_, .came (by simp) hc, by rw [toList_entered]⟩
  | call ht hc hn => exact ⟨_, .came hn hc, by rw [toList_entered, ht.keeps.events]⟩
  | leave hw => exact ⟨_, .went, by rw [toList_left, (World.stop_keeps hw).events]⟩
  | rollBack hw => exact ⟨_, .went, by rw [toList_left, (World.interrupt_keeps hw).events]⟩
  | finish result => exact ⟨_, .ended result, by simp [World.enqueue]⟩

/-- The nodes are distinct and in the graph. -/
def Placed (x : List NodeId × World σ) : Prop :=
  x.1.Nodup ∧ ∀ n ∈ x.1, x.2.graph.contains n

theorem Act.placed {label : StackLabel} {x y : List NodeId × World σ} (h : Act label heads x y)
    (hx : Placed x) : Placed y := by
  obtain ⟨hd, hc⟩ := hx
  have hg : ∀ n, x.2.graph.contains n → y.2.graph.contains n := fun n hn => by
    rwa [h.frame.graph.contains]
  cases h with
  | note | turn | hook | ask => exact ⟨hd, fun n hn => hg n (hc n hn)⟩
  | finish => exact ⟨hd, by simp⟩
  | head _ hm =>
    refine ⟨by simp, fun n hn => ?_⟩
    rw [List.mem_singleton.1 hn]
    exact hm
  | call _ hm hn =>
    refine ⟨List.nodup_cons.2 ⟨hn, hd⟩, fun n hn => ?_⟩
    rcases List.mem_cons.1 hn with rfl | hn
    · exact hm
    · exact hg n (hc n hn)
  | leave | rollBack =>
    exact ⟨(List.nodup_cons.1 hd).2, fun n hn => hg n (hc n (List.mem_cons_of_mem _ hn))⟩

theorem Acts.placed {label : StackLabel} {x y : List NodeId × World σ} (h : Acts label heads x y)
    (hx : Placed x) : Placed y := by
  induction h with
  | refl => exact hx
  | tail _ h ih => exact h.placed ih

end Stack

end BehaviorTree
