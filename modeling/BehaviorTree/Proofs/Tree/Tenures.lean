/-
The registrations of a service, told from the trace.

Each registration has its starts, and what counts beside these is whether the node was on its own
stack alone, from the registration on until the service is torn down. The trace tells of every
node that comes onto a stack and of every node that leaves one, so it tells this too.
-/
import Mathlib.Data.List.Induction
import BehaviorTree.Proofs.Tree.Starts

namespace BehaviorTree

/-- One registration of a service. -/
structure Tenure where
  /-- No other stack had the node in this time. -/
  alone : Bool
  /-- The ticks of the starts, in the order of time. -/
  ticks : List Nat := []
deriving DecidableEq, Repr

/-- The registrations of a service so far. -/
structure Account where
  /-- The other stacks that have the node now. -/
  elsewhere : List (Option Nat) := []
  registered : Bool := false
  /-- The last one stands first. -/
  tenures : List Tenure := []
deriving DecidableEq, Repr

namespace TraceEvent

/-- The service `s` is registered, starts a run, or is torn down. -/
def Registers (s : NodeId) (e : TraceEvent) : Prop :=
  e.tag ∈ registryTags ∧ e.stack = some s.index

/-- The node `s` comes onto another stack than its own. -/
def Strays (s : NodeId) (e : TraceEvent) : Prop :=
  e.tag = "bt.stack.push" ∧ e.node = some s.index ∧ e.stack ≠ some s.index

theorem IsOf.not_registers {label : StackLabel} {e : TraceEvent} (h : e.IsOf label) (s : NodeId) :
    ¬e.Registers s :=
  fun hr => h.tag hr.1

end TraceEvent

namespace Account

/-- A start belongs to the last registration. One before any registration would open one itself,
so that none is lost. -/
def start (tick : Nat) : List Tenure → List Tenure
  | [] => [{ alone := false, ticks := [tick] }]
  | x :: rest => { x with ticks := x.ticks ++ [tick] } :: rest

/-- The present registration has the node no longer to itself. -/
def disturb : List Tenure → List Tenure
  | [] => []
  | x :: rest => { x with alone := false } :: rest

def add (s : NodeId) (a : Account) (e : TraceEvent) : Account :=
  if e.stack = some s.index then
    if e.tag = "bt.service.register" then
      { a with registered := true, tenures := { alone := a.elsewhere.isEmpty } :: a.tenures }
    else if e.tag = "bt.service.start" then { a with tenures := start e.tick a.tenures }
    else if e.tag = "bt.service.unregister" then { a with registered := false }
    else a
  else if e.node = some s.index then
    if e.tag = "bt.stack.push" then
      { a with
        elsewhere := e.stack :: a.elsewhere
        tenures := if a.registered then disturb a.tenures else a.tenures }
    else if e.tag = "bt.stack.pop" then { a with elsewhere := a.elsewhere.erase e.stack }
    else a
  else a

/-- The service is registered, and no other stack has had its node since then. -/
def isAlone (a : Account) : Bool := a.registered && a.tenures.head?.any (·.alone)

end Account

/-- The registrations of the service `s` in a trace. -/
def account (s : NodeId) (events : List TraceEvent) : Account :=
  events.foldl (Account.add s) {}

section Account

variable {s : NodeId} {a a' a'' : Account} {e : TraceEvent} {events new : List TraceEvent}

theorem account_snoc (s : NodeId) (events : List TraceEvent) (e : TraceEvent) :
    account s (events ++ [e]) = (account s events).add s e := by
  simp [account]

namespace Account

theorem ticks_add (s : NodeId) (a : Account) (e : TraceEvent) :
    (a.add s e).tenures.map (·.ticks) = e.recount s (a.tenures.map (·.ticks)) := by
  unfold add TraceEvent.recount TraceEvent.Starts
  by_cases hs : e.stack = some s.index
  · simp only [hs, if_true, and_true]
    split
    · rfl
    split
    · cases a.tenures <;> rfl
    split <;> rfl
  · simp only [hs, if_false, and_false]
    repeat' split
    all_goals first | rfl | (cases a.tenures <;> rfl)

theorem add_of_register (a : Account) (ht : e.tag = "bt.service.register")
    (hs : e.stack = some s.index) :
    a.add s e = { a with
      registered := true, tenures := { alone := a.elsewhere.isEmpty } :: a.tenures } := by
  simp [add, ht, hs]

theorem add_of_unregister (a : Account) (ht : e.tag = "bt.service.unregister")
    (hs : e.stack = some s.index) : a.add s e = { a with registered := false } := by
  simp [add, ht, hs]

theorem add_of_starts (a : Account) (h : e.Starts s) :
    a.add s e = { a with tenures := start e.tick a.tenures } := by
  simp [add, h.1, h.2]

/-- While a service is alone no other stack has its node. -/
theorem elsewhere_add (h : a.isAlone → a.elsewhere = []) :
    (a.add s e).isAlone → (a.add s e).elsewhere = [] := by
  unfold add
  split
  · split
    · simp [isAlone]
    split
    · intro ha
      refine h ?_
      cases ht : a.tenures <;> simp_all [isAlone, start]
    split
    · simp [isAlone]
    · exact h
  split
  · split
    · intro ha
      cases hr : a.registered <;> cases ht : a.tenures <;> simp_all [isAlone, disturb]
    split
    · intro ha
      simp [h ha]
    · exact h
  · exact h

/-- A service that is alone after an event did not go onto another stack by it. -/
theorem not_strays_of_isAlone (h : (a.add s e).isAlone) : ¬e.Strays s := by
  rintro ⟨ht, hn, hs⟩
  simp only [add, hs, hn, ht, if_true, if_false] at h
  cases hr : a.registered <;> cases htenures : a.tenures <;> simp_all [isAlone, disturb]

/-- Events in which no service is registered, started or torn down change an account only in that
a registration may have the node to itself no longer. -/
structure Fades (a a' : Account) : Prop where
  registered : a'.registered = a.registered
  head : ∀ x', a'.tenures.head? = some x' →
    ∃ x, a.tenures.head? = some x ∧ x'.ticks = x.ticks ∧ (x'.alone → x.alone)
  all : ∀ x' ∈ a'.tenures, ∃ x ∈ a.tenures, x'.ticks = x.ticks ∧ (x'.alone → x.alone)

namespace Fades

theorem of_eq (hr : a'.registered = a.registered) (ht : a'.tenures = a.tenures) : Fades a a' :=
  ⟨hr, fun x hx => ⟨x, ht ▸ hx, rfl, id⟩, fun x hx => ⟨x, ht ▸ hx, rfl, id⟩⟩

theorem trans (h : Fades a a') (h' : Fades a' a'') : Fades a a'' := by
  refine ⟨h'.registered.trans h.registered, fun z hz => ?_, fun z hz => ?_⟩
  · obtain ⟨y, hy, hzy, hay⟩ := h'.head z hz
    obtain ⟨x, hx, hyx, hax⟩ := h.head y hy
    exact ⟨x, hx, hzy.trans hyx, fun ha => hax (hay ha)⟩
  · obtain ⟨y, hy, hzy, hay⟩ := h'.all z hz
    obtain ⟨x, hx, hyx, hax⟩ := h.all y hy
    exact ⟨x, hx, hzy.trans hyx, fun ha => hax (hay ha)⟩

theorem isAlone (h : Fades a a') (ha : a'.isAlone) : a.isAlone := by
  obtain ⟨hr, x', hx', halone⟩ : a'.registered ∧ ∃ x', a'.tenures.head? = some x' ∧ x'.alone := by
    simpa [Account.isAlone, Option.any_eq_true] using ha
  obtain ⟨x, hx, -, himp⟩ := h.head x' hx'
  simp [Account.isAlone, ← h.registered, hr, hx, himp halone]

theorem disturb (a : Account) : Fades a { a with tenures := Account.disturb a.tenures } := by
  refine ⟨rfl, fun x' hx' => ?_, fun x' hx' => ?_⟩ <;> cases ht : a.tenures with
  | nil => simp [Account.disturb, ht] at hx'
  | cons x rest =>
    simp only [Account.disturb, ht, List.head?_cons, Option.some.injEq, List.mem_cons] at hx'
    simp only [List.head?_cons, Option.some.injEq, List.mem_cons]
    first
      | exact ⟨x, rfl, by rw [← hx'], by rw [← hx']; simp⟩
      | exact hx'.elim (fun h => ⟨x, .inl rfl, by rw [h], by rw [h]; simp⟩)
          fun h => ⟨x', .inr h, rfl, id⟩

end Fades

theorem fades_add (h : ¬e.Registers s) : Fades a (a.add s e) := by
  have htag : ∀ tag ∈ registryTags, e.stack = some s.index → e.tag ≠ tag :=
    fun tag ht hs he => h ⟨he ▸ ht, hs⟩
  unfold add
  split
  · next hs =>
    rw [if_neg (htag _ (by simp [registryTags]) hs), if_neg (htag _ (by simp [registryTags]) hs),
      if_neg (htag _ (by simp [registryTags]) hs)]
    exact .of_eq rfl rfl
  split
  · split
    · by_cases hr : a.registered
      · rw [if_pos hr]
        exact (Fades.disturb a).trans (.of_eq rfl rfl)
      · rw [if_neg hr]
        exact .of_eq rfl rfl
    split <;> exact .of_eq rfl rfl
  · exact .of_eq rfl rfl

end Account

open Account

theorem ticks_account (s : NodeId) (events : List TraceEvent) :
    (account s events).tenures.map (·.ticks) = startTicks s events := by
  induction events using List.reverseRecOn with
  | nil => rfl
  | append_singleton events e ih => rw [account_snoc, ticks_add, ih, startTicks_snoc]

theorem elsewhere_account (h : (account s events).isAlone) :
    (account s events).elsewhere = [] := by
  induction events using List.reverseRecOn with
  | nil => rfl
  | append_singleton events e ih =>
    rw [account_snoc] at h ⊢
    exact elsewhere_add ih h

theorem fades_account (events : List TraceEvent) (h : ∀ e ∈ new, ¬e.Registers s) :
    Fades (account s events) (account s (events ++ new)) := by
  induction new using List.reverseRecOn with
  | nil => exact .of_eq (by simp) (by simp)
  | append_singleton new e ih =>
    rw [← List.append_assoc, account_snoc]
    exact (ih fun e' he' => h e' (List.mem_append_left _ he')).trans (fades_add (h e (by simp)))

/-- A start makes the last registration one longer. -/
theorem fades_started {x : Tenure} {rest : List Tenure}
    (ht : (account s events).tenures = x :: rest) (he : e.Starts s) (hn : ∀ e ∈ new, ¬e.Registers s) :
    Fades { account s events with tenures := { x with ticks := x.ticks ++ [e.tick] } :: rest }
      (account s (events ++ [e] ++ new)) := by
  have hfades := fades_account (events ++ [e]) hn
  rwa [account_snoc, add_of_starts _ he, ht] at hfades

/-- A service that is alone after some events did not go onto another stack by any of them. -/
theorem not_strays (h : ∀ e ∈ new, ¬e.Registers s) (ha : (account s (events ++ new)).isAlone) :
    ∀ e ∈ new, ¬e.Strays s := by
  induction new using List.reverseRecOn with
  | nil => simp
  | append_singleton new e ih =>
    rw [← List.append_assoc, account_snoc] at ha
    have hfirst := (fades_add (h e (by simp))).isAlone ha
    intro e' he'
    rcases List.mem_append.1 he' with he' | he'
    · exact ih (fun e' he' => h e' (List.mem_append_left _ he')) hfirst e' he'
    · rw [List.mem_singleton.1 he']
      exact not_strays_of_isAlone ha

/-- What an event of another stack means for the stacks that have the node. -/
theorem Account.elsewhere_add_of_ne (a : Account) (h : e.stack ≠ some s.index) :
    (a.add s e).elsewhere
      = if e.node = some s.index then
          if e.tag = "bt.stack.push" then e.stack :: a.elsewhere
          else if e.tag = "bt.stack.pop" then a.elsewhere.erase e.stack
          else a.elsewhere
        else a.elsewhere := by
  rw [add, if_neg h]
  repeat' split
  all_goals rfl

/-- The account tells of every other stack that has the node. -/
theorem count_replayStack (s : NodeId) {label : StackLabel} (hl : label ≠ .service s)
    {nodes : List NodeId} (h : replayStack label events = some nodes) :
    nodes.count s ≤ (account s events).elsewhere.count label.traceId := by
  have hown : label.traceId ≠ some s.index := fun he => hl (StackLabel.traceId_injective he)
  induction events using List.reverseRecOn generalizing nodes with
  | nil =>
    cases h
    simp
  | append_singleton events e ih =>
    rw [replayStack_append, Option.bind_eq_some_iff] at h
    obtain ⟨before, hb, he⟩ := h
    replace he : e.replay label before = some nodes := by simpa using he
    have hbefore := ih hb
    rw [account_snoc]
    generalize account s events = a at hbefore ⊢
    by_cases hs : e.stack = label.traceId
    · rw [elsewhere_add_of_ne a (hs ▸ hown), hs]
      unfold TraceEvent.replay at he
      rw [if_neg (not_not.2 hs)] at he
      split at he
      · next hpush =>
        split at he
        · cases he
        next index hn =>
        split at he
        · cases he
          by_cases hi : index = s.index
          · subst hi
            simpa [hn, hpush] using hbefore
          · have hne : (⟨index⟩ : NodeId) ≠ s := fun h => hi (congrArg NodeId.index h)
            simpa [hn, hi, List.count_cons_of_ne hne] using hbefore
        · cases he
      split at he
      · next hpush hpop =>
        split at he
        · cases he
        next top rest =>
        split at he
        · next hn =>
          cases he
          by_cases ht : top = s
          · subst ht
            rw [List.count_cons_self] at hbefore
            rw [if_pos hn.1, if_neg hpush, if_pos hpop, List.count_erase_self]
            omega
          · have hi : top.index ≠ s.index := fun h => ht (NodeId.ext h)
            rw [List.count_cons_of_ne ht] at hbefore
            simpa [hn.1, hi] using hbefore
        · cases he
      · next hpush hpop =>
        cases he
        simpa [hpush, hpop] using hbefore
    · rw [TraceEvent.replay_of_ne hs] at he
      cases he
      refine Nat.le_trans hbefore (Nat.le_of_eq ?_)
      by_cases hself : e.stack = some s.index
      · rw [add, if_pos hself]
        repeat' split
        all_goals rfl
      · rw [elsewhere_add_of_ne a hself]
        repeat' split
        · rw [List.count_cons_of_ne hs]
        · rw [List.count_erase_of_ne (Ne.symm hs)]
        all_goals rfl

end Account

namespace Tree

variable {σ : Type} {t : Tree σ} {s : NodeId}

/-- While a service is alone its node is on no stack but its own. -/
theorem Traced.apart (h : t.Traced) (ha : (account s t.world.traced).isAlone) {label : StackLabel}
    (hl : label ≠ .service s) : s ∉ t.nodesOf label := by
  have hcount := count_replayStack s hl (h.nodes label)
  rw [elsewhere_account ha] at hcount
  exact List.count_eq_zero.1 (Nat.le_zero.1 (by simpa using hcount))

end Tree

end BehaviorTree
