/-
What a step does to the stacks of a tree.

Seen from the stacks a step is one of a few changes: an operation on one of them, a stack that
is opened or closed with its service, new settings for all, or nothing at all. The stack that
a label names is the only one that an operation under that label touches, and it is told
from the happenings.
-/
import BehaviorTree.Proofs.Stack.Replay
import BehaviorTree.Proofs.Tree.Steps

namespace BehaviorTree

/-- A service is asked whether it is ready, or told that it is registered or is not any more. -/
def Call.isNotice : Call → Bool
  | ready _ | registered | unregistered => true
  | _ => false

theorem Call.isDispatch_of_isNotice {c : Call} (h : c.isNotice) : c.isDispatch = false := by
  cases c <;> first | rfl | cases h

namespace Tree

variable {σ : Type}

/-- The stack that the label names, if there is one at present. -/
def stack? (t : Tree σ) : StackLabel → Option Stack
  | .main => some t.main
  | .service s => (t.service? s).map (·.stack)

/-- The node that a stack begins with. -/
def head (t : Tree σ) : StackLabel → NodeId
  | .main => t.root
  | .service s => s

/-! ## Looking up services -/

section Lookup

variable {t : Tree σ} {v : Service} {s : NodeId}

theorem service?_putService (t : Tree σ) (v : Service) (s : NodeId) :
    (t.putService v).service? s
      = (t.service? s).map fun old => if old.service = v.service then v else old := by
  unfold service? putService
  rw [List.find?_map]
  congr 2
  funext old
  by_cases hs : old.service = v.service <;> simp [hs]

theorem service?_putService_self (h : t.service? v.service ≠ none) :
    (t.putService v).service? v.service = some v := by
  obtain ⟨old, ho⟩ := Option.ne_none_iff_exists'.1 h
  rw [service?_putService, ho, Option.map_some, if_pos (service?_eq_some ho).2]

theorem service?_putService_of_ne (h : s ≠ v.service) :
    (t.putService v).service? s = t.service? s := by
  rw [service?_putService]
  cases ho : t.service? s with
  | none => rfl
  | some old =>
    have hne : old.service ≠ v.service := by
      rw [(service?_eq_some ho).2]
      exact h
    rw [Option.map_some, if_neg hne]

theorem service?_of_mem (hn : (t.services.map (·.service)).Nodup) (hv : v ∈ t.services) :
    t.service? v.service = some v := by
  cases ho : t.service? v.service with
  | none =>
    have hnone := List.find?_eq_none.1 ho v hv
    simp at hnone
  | some u =>
    obtain ⟨hu, hs⟩ := service?_eq_some ho
    rw [service_unique hn hu hv hs]

theorem find?_eraseP_self {services : List Service} (hn : (services.map (·.service)).Nodup) :
    (services.eraseP (·.service = s)).find? (·.service = s) = none := by
  induction services with
  | nil => rfl
  | cons a rest ih =>
    obtain ⟨ha, hn⟩ := List.nodup_cons.1 hn
    by_cases hs : a.service = s
    · rw [List.eraseP_cons_of_pos (by simpa using hs)]
      refine List.find?_eq_none.2 fun u hu hus => ha (List.mem_map.2 ⟨u, hu, ?_⟩)
      simpa [hs] using hus
    · rw [List.eraseP_cons_of_neg (by simpa using hs),
        List.find?_cons_of_neg (by simpa using hs)]
      exact ih hn

theorem find?_eraseP_of_ne {services : List Service} {s' : NodeId} (h : s' ≠ s) :
    (services.eraseP (·.service = s)).find? (·.service = s')
      = services.find? (·.service = s') := by
  induction services with
  | nil => rfl
  | cons a rest ih =>
    by_cases hs : a.service = s
    · have hne : ¬a.service = s' := fun he => h (he.symm.trans hs)
      rw [List.eraseP_cons_of_pos (by simpa using hs), List.find?_cons_of_neg (by simpa using hne)]
    · rw [List.eraseP_cons_of_neg (by simpa using hs), List.find?_cons, List.find?_cons, ih]

end Lookup

variable [Node σ] {call : HostCall} {t t' t'' : Tree σ} {found found' told told' : List Breach}

/-- What a step does, as the stacks see it. -/
inductive StackChange (call : HostCall) (t : Tree σ) (found : List Breach) (t' : Tree σ) : Prop
  | operated (label : StackLabel) {s : Stack} {op : Stack.Operation}
      (hs : t.stack? label = some s)
      (hop : s.Admits (t.head label) op ∨ call.Orders t.root label op)
      (hf : found = (s.perform t.world op).breaches label)
      (hs' : t'.stack? label = some (s.perform t.world op).after)
      (hw : t'.world = (s.perform t.world op).world)
      (ho : ∀ other, other ≠ label → t'.stack? other = t.stack? other)
  | aside (new : List Happening) (hf : found = []) (hs : ∀ label, t'.stack? label = t.stack? label)
      (hh : t'.world.happenings = t.world.happenings ++ new)
      (hn : ∀ x ∈ new, ∃ node c, x = .called node c ∧ c.isNotice)
  | opened (label : StackLabel) (s : Stack) (new : List Happening) (hf : found = [])
      (hs : t.stack? label = none) (hs' : t'.stack? label = some s) (hn : s.nodes = [])
      (hst : s.state = .ready) (ho : ∀ other, other ≠ label → t'.stack? other = t.stack? other)
      (hh : t'.world.happenings = t.world.happenings ++ new)
      (hn : ∀ x ∈ new, ∃ node c, x = .called node c ∧ c.isNotice)
  | closed (label : StackLabel) {s : Stack} (new : List Happening) (hf : found = [])
      (hs : t.stack? label = some s) (hs' : t'.stack? label = none)
      (ho : ∀ other, other ≠ label → t'.stack? other = t.stack? other)
      (hh : t'.world.happenings = (s.terminate t.world).world.happenings ++ new)
      (hn : ∀ x ∈ new, x = .tornDown label ∨ ∃ node c, x = .called node c ∧ c.isNotice)
      (ht : .tornDown label ∈ new ∨ call = .terminate)
  | configured (config : Config) (hf : found = [])
      (hs : ∀ label, t'.stack? label = (t.stack? label).map (·.applyConfig config))
      (hw : t'.world = t.world)

omit [Node σ] in
theorem stack?_putService {v v' : Service} {w : World σ} (ht : t.Sound) (hv : v ∈ t.services)
    (h : v'.service = v.service) (label : StackLabel) :
    ({ t.putService v' with world := w } : Tree σ).stack? label
      = if label = .service v.service then some v'.stack else t.stack? label := by
  have hlook : t.service? v'.service ≠ none := by
    rw [h, service?_of_mem ht.nodup hv]
    exact Option.some_ne_none v
  cases label with
  | main => rfl
  | service s =>
    show ((t.putService v').service? s).map (·.stack) = _
    by_cases hs : s = v.service
    · subst hs
      rw [if_pos rfl, ← h, service?_putService_self hlook]
      rfl
    · rw [if_neg (by simpa using hs), service?_putService_of_ne (by rw [h]; exact hs)]
      rfl

omit [Node σ] in
theorem stack?_of_mem {v : Service} (ht : t.Sound) (hv : v ∈ t.services) :
    t.stack? v.label = some v.stack := by
  rw [ht.labels v hv]
  show (t.service? v.service).map (·.stack) = _
  rw [service?_of_mem ht.nodup hv]
  rfl

omit [Node σ] in
/-- Every stack is sound, under its own label. -/
theorem Sound.stack (ht : t.Sound) {label : StackLabel} {s : Stack}
    (h : t.stack? label = some s) : s.Sound t.world ∧ s.label = label := by
  cases label with
  | main =>
    cases h
    exact ⟨ht.main, ht.main_label⟩
  | service id =>
    obtain ⟨v, hv, rfl⟩ := Option.map_eq_some_iff.1 h
    obtain ⟨hm, rfl⟩ := service?_eq_some hv
    exact ⟨ht.services v hm, ht.labels v hm⟩

omit [Node σ] in
/-- Services other than the one that is taken out keep their stacks. -/
theorem stack?_eraseService (ht : t.Sound) (s : NodeId) (w : World σ) (label : StackLabel) :
    ({ t with world := w, services := t.services.eraseP (·.service = s) } : Tree σ).stack? label
      = if label = .service s then none else t.stack? label := by
  cases label with
  | main => rfl
  | service s' =>
    show Option.map _ ((t.services.eraseP (·.service = s)).find? (·.service = s')) = _
    by_cases hs : s' = s
    · subst hs
      rw [if_pos rfl, find?_eraseP_self ht.nodup]
      rfl
    · rw [if_neg (by simpa using hs), find?_eraseP_of_ne hs]
      rfl

omit [Node σ] in
/-- New settings reach every stack, and change nothing else. -/
theorem stack?_withConfig (t : Tree σ) (config : Config) (label : StackLabel) :
    (t.withConfig config).stack? label = (t.stack? label).map (·.applyConfig config) := by
  cases label with
  | main => rfl
  | service id =>
    show Option.map _ (List.find? _ (t.services.map _)) = _
    rw [List.find?_map]
    simp only [stack?, service?, Function.comp_def, Option.map_map]

/-- A step that only adds quiet happenings. -/
theorem StackChange.of_quiet (hs : ∀ label, t'.stack? label = t.stack? label)
    (hh : t'.world.happenings = t.world.happenings) : StackChange call t [] t' :=
  .aside [] rfl hs (by rw [hh, List.append_nil]) (by simp)

theorem stackChange_service {v v' : Service} {w : World σ} (ht : t.Sound) (hv : v ∈ t.services)
    (h : Service.Step (call.Orders t.root v.label) (v, t.world) found (v', w)) :
    StackChange call t found { t.putService v' with world := w } := by
  have hlabel := ht.labels v hv
  have hstack := stack?_of_mem ht hv
  have hput := fun label => stack?_putService (w := w) ht hv h.service label
  have hsame : v'.stack = v.stack → ∀ label,
      ({ t.putService v' with world := w } : Tree σ).stack? label = t.stack? label := by
    intro he label
    rw [hput label, he]
    split
    · next hl => rw [hl, ← hlabel, hstack]
    · rfl
  cases h with
  | operate _ _ hop =>
    refine .operated v.label hstack ?_ rfl ?_ rfl fun other ho => ?_
    · rw [hlabel] at hop ⊢
      exact hop
    · rw [hput, if_pos hlabel]
    · rw [hput, if_neg (by rw [← hlabel]; exact ho)]
  | count => exact .of_quiet (hsame rfl) rfl
  | ask =>
    rcases World.happenings_ready t.world v.service with hh | ⟨answer, hh⟩
    · exact .of_quiet (hsame rfl) hh
    · refine .aside _ rfl (hsame rfl) hh fun x hx => ?_
      exact ⟨v.service, .ready answer, List.mem_singleton.1 hx, rfl⟩
  | trace _ _ h => exact .of_quiet (hsame rfl) (World.happenings_trace t.world h ..)

theorem stackChange_register (owner s : NodeId) :
    StackChange call t [] (registerService owner t s) := by
  unfold registerService
  split
  · exact .of_quiet (fun _ => rfl) rfl
  next hr =>
  have hnone : t.service? s = none := by
    simpa [isRegistered] using hr
  have hnew : ∃ new, ((t.world.registered s).trace "bt.service.register" (.service s) owner
      0).happenings = t.world.happenings ++ new ∧
        ∀ x ∈ new, ∃ node c, x = .called node c ∧ c.isNotice := by
    rw [World.happenings_trace _ (by decide)]
    rcases World.happenings_registered t.world s with hh | hh
    · exact ⟨[], by rw [hh, List.append_nil], by simp⟩
    · exact ⟨_, hh, fun x hx => ⟨s, .registered, List.mem_singleton.1 hx, rfl⟩⟩
  have happ : ∀ s', (t.services ++ [Service.make s owner t.config]).find? (·.service = s')
      = (t.service? s').or (if s' = s then some (Service.make s owner t.config) else none) := by
    intro s'
    rw [List.find?_append]
    congr 1
    by_cases hs : s' = s <;> simp [Service.make, hs, eq_comm]
  obtain ⟨new, hh, hn⟩ := hnew
  refine .opened (.service s) (Service.make s owner t.config).stack new rfl ?_ ?_ rfl rfl
    (fun other ho => ?_) hh hn
  · simp [stack?, hnone]
  · show Option.map _ (List.find? _ (t.services ++ [Service.make s owner t.config])) = _
    rw [happ s, hnone]
    simp
  · cases other with
    | main => rfl
    | service s' =>
      have hne : s' ≠ s := by simpa using ho
      show Option.map _ (List.find? _ (t.services ++ [Service.make s owner t.config])) = _
      rw [happ s', if_neg hne, Option.or_none]
      rfl

/-- A service goes: its stack is ended first. -/
theorem stackChange_erase (ht : t.Sound) {s : NodeId} {v : Service} (hv : t.service? s = some v)
    {w : World σ} (new : List Happening)
    (hh : w.happenings = ((v.stack.terminate t.world).world.unregistered s).happenings ++ new)
    (hn : ∀ x ∈ new, x = .tornDown (.service s))
    (hc : .tornDown (.service s) ∈ new ∨ call = .terminate) :
    StackChange call t []
      { t with world := w, services := t.services.eraseP (·.service = s) } := by
  obtain ⟨hm, rfl⟩ := service?_eq_some hv
  have herase := stack?_eraseService ht v.service w
  have hstack : t.stack? (.service v.service) = some v.stack := by
    rw [← ht.labels v hm]
    exact stack?_of_mem ht hm
  have hends : ∃ calls : List Happening, w.happenings
      = (v.stack.terminate t.world).world.happenings ++ (calls ++ new) ∧
        ∀ x ∈ calls, ∃ node c, x = .called node c ∧ c.isNotice := by
    rcases World.happenings_unregistered (v.stack.terminate t.world).world v.service with hu | hu
    · exact ⟨[], by rw [hh, hu]; rfl, by simp⟩
    · refine ⟨[.called v.service .unregistered], by rw [hh, hu, List.append_assoc], fun x hx => ?_⟩
      exact ⟨v.service, .unregistered, List.mem_singleton.1 hx, rfl⟩
  obtain ⟨calls, hw, hcalls⟩ := hends
  refine .closed (.service v.service) (calls ++ new) rfl hstack ?_ (fun other ho => ?_)
    hw (fun x hx => ?_) ?_
  · rw [herase, if_pos rfl]
  · rw [herase, if_neg ho]
  · rcases List.mem_append.1 hx with hx | hx
    · exact .inr (hcalls x hx)
    · exact .inl (hn x hx)
  · exact hc.imp (List.mem_append_right calls) id

/-- Every step is such a change. -/
theorem Step.stackChange (h : Step call t found t') (ht : t.Sound) :
    StackChange call t found t' := by
  cases h with
  | main h =>
    refine .operated .main rfl h ?_ rfl rfl fun other ho => ?_
    · rw [ht.main_label]
    · cases other with
      | main => exact absurd rfl ho
      | service s => rfl
  | service hv h => exact stackChange_service ht hv h
  | register => exact stackChange_register _ _
  | unregister owner s =>
    unfold unregisterService
    split
    · exact .of_quiet (fun _ => rfl) rfl
    next v hv =>
    refine stackChange_erase ht hv [.tornDown (.service s)] ?_ (by simp) (.inl (by simp))
    exact World.happenings_record _ _
  | tearDown hc hv =>
    exact stackChange_erase ht hv [] (List.append_nil _).symm (by simp) (.inr hc)
  | trace h => exact .of_quiet (fun label => by cases label <;> rfl) (World.happenings_trace _ h ..)
  | take | clock | due | setVariables | fields =>
    exact .of_quiet (fun label => by cases label <;> rfl) rfl
  | @config c => exact .configured c rfl (stack?_withConfig t c) rfl

end Tree

end BehaviorTree
