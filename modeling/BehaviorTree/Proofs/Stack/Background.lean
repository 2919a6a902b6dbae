/-
Services of the library on their stacks.

A service knows of a run of its own for as long as its node is on the stack: it is executed there,
and whenever it leaves it is stopped. A stack that does not have the node asks it at most whether
it is ready. And a fresh run on an empty stack begins with an execution of the head.
-/
import BehaviorTree.Proofs.Library.Background
import BehaviorTree.Proofs.Stack.Resume
import BehaviorTree.Proofs.Tree.Tenures

namespace BehaviorTree.Stack

variable {σ : Type} [Node σ] {f : BackgroundNode → σ} {s : NodeId} {label : StackLabel}
  {heads : NodeId → Prop} {x y : List NodeId × World σ} {w w' : World σ}

theorem minds_turned (hf : Node.Hosts f) {n : NodeId} {d : Dispatch} (h : w.Turned n w' d) :
    ∃ calls : List Call, (∀ c ∈ calls, c.isRegistry = false) ∧
      w.Minds f s w' (if n = s then calls else []) := by
  rcases h with h | ⟨ok, h⟩
  · obtain ⟨calls, hc, -, hm⟩ := World.minds_execute hf h
    exact ⟨calls, hc, hm⟩
  · exact ⟨[.receive ok], by simp [Call.isRegistry], World.minds_receive hf h⟩

/-- What the acts of a stack mean for the service `s`. -/
structure Minding (f : BackgroundNode → σ) (s : NodeId) (x y : List NodeId × World σ)
    (calls : List Call) : Prop where
  minds : x.2.Minds f s y.2 calls
  registry : ∀ c ∈ calls, c.isRegistry = false
  /-- A node that is not on the stack is only asked. -/
  idle : s ∉ x.1 → ∀ c ∈ calls, c.isIdle
  /-- A node that leaves is stopped, and that is all. -/
  stays : s ∈ x.1 → s ∈ y.1 ∨ calls = [.stop]

omit [Node σ] in
/-- A step of a node on the stack. -/
theorem minding_step {n : NodeId} {rest : List NodeId} {ns : List NodeId} {calls : List Call}
    (hm : w.Minds f s w' (if n = s then calls else [])) (hc : ∀ c ∈ calls, c.isRegistry = false)
    (hs : n ≠ s → s ∈ n :: rest → s ∈ ns) (hself : n = s → s ∈ ns ∨ calls = [.stop]) :
    Minding f s (n :: rest, w) (ns, w') (if n = s then calls else []) := by
  by_cases hn : n = s
  · simp only [if_pos hn] at hm ⊢
    exact ⟨hm, hc, fun h => absurd (by simp [hn]) h, fun _ => hself hn⟩
  · simp only [if_neg hn] at hm ⊢
    exact ⟨hm, by simp, fun _ => by simp, fun h => .inl (hs hn h)⟩

theorem Act.minding (hf : Node.Hosts f) (h : Act label heads x y) :
    ∃ calls, Minding f s x y calls := by
  have hof : ∀ n (calls : List Call), (∀ c ∈ calls, c.isIdle) →
      ∀ c ∈ if n = s then calls else [], c.isIdle := by
    intro n calls hc
    split
    · exact hc
    · simp
  have hgone : ∀ {top : NodeId} {rest : List NodeId} {w w' : World σ},
      w.Minds f s w' (if top = s then [.stop] else []) →
      ∃ calls, Minding f s (top :: rest, w) (rest, w'.left label top rest.length) calls := by
    intro top rest w w' hm
    have hm := hm.trans (.left w' label top rest.length)
    rw [List.append_nil] at hm
    refine ⟨_, minding_step hm (by simp [Call.isRegistry]) (fun hn hs => ?_) fun _ => .inr rfl⟩
    exact (List.mem_cons.1 hs).resolve_left (Ne.symm hn)
  cases h with
  | note hr => exact ⟨[], .record _ (by simp [hr]), by simp, fun _ => by simp, .inl⟩
  | turn h =>
    obtain ⟨calls, hc, hm⟩ := minds_turned (s := s) hf h
    exact ⟨_, minding_step hm hc (fun _ hs => hs) fun hn => .inl (by simp [hn])⟩
  | @hook top rest w phase =>
    obtain ⟨calls, hc, hm⟩ := World.minds_hook (s := s) hf w top phase
    have hc := hof top calls hc
    exact ⟨_, hm, fun c hm => Call.isRegistry_of_isIdle (hc c hm), fun _ => hc, .inl⟩
  | @ask ns w id =>
    obtain ⟨calls, hc, hm⟩ := World.minds_ready (s := s) hf w id
    have hc := hof id calls hc
    exact ⟨_, hm, fun c hm => Call.isRegistry_of_isIdle (hc c hm), fun _ => hc, .inl⟩
  | head => exact ⟨[], .entered .., by simp, fun _ => by simp, fun hs => absurd hs (by simp)⟩
  | @call top rest w w' child h hc hn =>
    obtain ⟨calls, hc, hm⟩ := minds_turned (s := s) hf h
    have hm := hm.trans (.entered w' label child (rest.length + 2))
    rw [List.append_nil] at hm
    exact ⟨_, minding_step hm hc (fun _ hs => List.mem_cons_of_mem _ hs)
      fun hn => .inl (by simp [hn])⟩
  | leave h => exact hgone (World.minds_stop hf h)
  | rollBack h => exact hgone (World.minds_interrupt hf h)
  | finish => exact ⟨[], .of_eq rfl rfl rfl, by simp, fun _ => by simp, .inl⟩

omit [Node σ] in
/-- A service knows of no run once its node is off the stack. -/
theorem Minding.running {calls : List Call} (h : Minding f s x y calls) {now : Nat}
    {b : BackgroundNode} (hb : b.isRunning → s ∈ x.1)
    (hr : (calls.foldl (BackgroundNode.after now) b).isRunning) : s ∈ y.1 := by
  by_cases hs : s ∈ x.1
  · rcases h.stays hs with hs | rfl
    · exact hs
    · cases b <;> cases hr
  · rw [BackgroundNode.foldl_idle now b (h.idle hs)] at hr
    exact absurd (hb hr) hs

/-- Whatever a stack does, a service is called as a node on a stack is, and knows of a run for as
long as its node is on the stack. -/
theorem Acts.minds (hf : Node.Hosts f) (h : Acts label heads x y) :
    ∃ calls : List Call, x.2.Minds f s y.2 calls ∧ (∀ c ∈ calls, c.isRegistry = false) ∧
      ∀ b : BackgroundNode, (b.isRunning → s ∈ x.1) →
        (calls.foldl (BackgroundNode.after x.2.tick.number) b).isRunning → s ∈ y.1 := by
  induction h with
  | refl => exact ⟨[], .refl .., by simp, fun b hb => hb⟩
  | tail _ h ih =>
    obtain ⟨calls, hm, hc, hr⟩ := ih
    obtain ⟨more, hmore⟩ := h.minding (s := s) hf
    refine ⟨calls ++ more, hm.trans hmore.minds, List.forall_mem_append.2 ⟨hc, hmore.registry⟩,
      fun b hb => ?_⟩
    rw [List.foldl_append]
    exact hmore.running (hr b hb)

/-- A stack that the node did not come onto leaves the service alone. -/
theorem Acts.apart (hf : Node.Hosts f) (h : Acts label heads x y) (hl : label ≠ .service s)
    (hs : s ∉ x.1) (hn : ∀ new, y.2.traced = x.2.traced ++ new → ∀ e ∈ new, ¬e.Strays s) :
    s ∉ y.1 ∧ ∃ calls : List Call, x.2.Minds f s y.2 calls ∧ ∀ c ∈ calls, c.isIdle := by
  have hown : label.traceId ≠ some s.index := fun he => hl (StackLabel.traceId_injective he)
  induction h with
  | refl => exact ⟨hs, [], .refl .., by simp⟩
  | @tail y z hy h ih =>
    have hbefore := (Acts.writes hy).traced
    obtain ⟨last, hlast⟩ := h.writes.traced
    obtain ⟨hy, calls, hm, hc⟩ := ih fun new hnew e he =>
      hn (new ++ last) (by rw [← hlast, hnew, List.append_assoc]) e (List.mem_append_left _ he)
    obtain ⟨more, hmore⟩ := h.minding (s := s) hf
    refine ⟨?_, calls ++ more, hm.trans hmore.minds,
      List.forall_mem_append.2 ⟨hc, hmore.idle hy⟩⟩
    -- Whatever comes onto the stack is traced.
    have hentered : ∀ {w : World σ} {n : NodeId} {depth : Nat}, x.2.traced <+: w.traced →
        z.2 = w.entered label n depth → s ≠ n := by
      rintro w n depth ⟨first, hfirst⟩ hz rfl
      have htraced : z.2.traced
          = x.2.traced ++ (first ++ [w.event "bt.stack.push" label s depth]) := by
        rw [hz, ← List.append_assoc, hfirst]
        exact World.traced_trace ..
      exact hn _ htraced (w.event "bt.stack.push" label s depth) (by simp) ⟨rfl, rfl, hown⟩
    cases h with
    | note | turn | hook | ask | finish => exact hy
    | head => simpa using hentered hbefore rfl
    | call h =>
      rw [List.mem_cons, not_or]
      refine ⟨hentered (hbefore.trans ?_) rfl, hy⟩
      rcases h with h | ⟨ok, h⟩
      · exact (World.Writes.execute h).traced
      · exact (World.Writes.receive h).traced
    | leave | rollBack => exact fun hr => hy (List.mem_cons_of_mem _ hr)

/-! ## Fresh runs -/

/-- A run on an empty stack begins with an execution of the head. -/
theorem restart_executes (hf : Node.Hosts f) {st : Stack} {b : BackgroundNode}
    (hs : st.state = .ready ∨ st.state = .ended) (hn : st.nodes = []) (hc : st.current = none)
    (hp : st.paused = false) (hbudget : 0 < st.stepBudget) (hb : w.Serves f s b) :
    ∃ bound more, (st.restart w s).world.happenings
        = w.happenings ++ (.entered st.label s :: bound ++ .called s .execute :: more) ∧
      (bound = [] ∨ bound = [.called s .bind]) := by
  have hknown : w.graph.contains s := by
    obtain ⟨slot, hslot, -⟩ := hb
    rw [← Graph.isSome_slot?, hslot]
    rfl
  -- Ready or ended, the stack is ready then, with the head on it.
  have hstarted : st.restart w s
      = ({ st with nodes := [s], state := .ready, result := none, parkedAt := none } : Stack).run
        (w.entered st.label s 1) := by
    rcases hs with hs | hs <;> simp [restart, start, push, hs, hn, hc, hknown, isEmpty, depth]
  have hserves := (World.Minds.entered w st.label s 1).serves b hb
  obtain ⟨w', d, hw, hwrites⟩ := run_begins (n := s)
    (s := { st with nodes := [s], state := .ready, result := none, parkedAt := none })
    (w := w.entered st.label s 1) (.inl rfl) rfl hp hbudget hknown
  obtain ⟨-, calls, hh, hcalls⟩ := World.execute_serves hf hserves hw
  obtain ⟨more, hmore⟩ := hwrites.happenings
  rw [hstarted, ← hmore, hh, World.happenings_entered]
  rcases hcalls with rfl | rfl
  · exact ⟨[.called s .bind], more, by simp, .inr rfl⟩
  · exact ⟨[], more, by simp, .inl rfl⟩

end BehaviorTree.Stack
