/-
Sequences, selectors, conditions and inverters on a stack do what they mean.

What is left of an evaluation is matched from any spot where a child has just come back;
the induction is on the children that remain.
-/
import BehaviorTree.Proofs.Flow.Simulation

namespace BehaviorTree

variable {τ : Type} [Node τ] {g : Graph (FlowNode ⊕ τ)} {label : StackLabel}

/-! ## Sequences and selectors -/

/-- Where some children remain after the `k`th, the first of them is next. -/
theorem getElem?_of_drop {k : Nat} {ids rest : List NodeId} {id : NodeId}
    (h : ids.drop k = id :: rest) : ids[k]? = some id ∧ ids.drop (k + 1) = rest := by
  have h₀ : (ids.drop k)[0]? = some id := by simp [h]
  have h₁ : (ids.drop k).drop 1 = rest := by simp [h]
  rw [List.getElem?_drop] at h₀
  rw [List.drop_drop] at h₁
  exact ⟨h₀, h₁⟩

theorem getElem?_of_drop_nil {k : Nat} {ids : List NodeId} (h : ids.drop k = []) :
    ids[k]? = none := by
  rw [List.getElem?_eq_none_iff]
  exact List.drop_eq_nil_iff.1 h

section Composites

variable {id : NodeId} {rest : List NodeId} {c c' : Course (FlowNode ⊕ τ)} {b : Bool}
  {evaluate : NodeId → Course (FlowNode ⊕ τ) → Option (Bool × Course (FlowNode ⊕ τ))}

theorem sequence_rest {s : Sequence} (st : Site g id (.sequence s) rest)
    (hev : Simulated g label evaluate) {ids : List NodeId} :
    ∀ {k : Nat} {ok : Bool} {c : Course (FlowNode ⊕ τ)} {last w}, s.children.drop (k + 1) = ids →
      Course.inOrder evaluate ok ids c = some (b, c') →
      w.Holds id (.sequence { s with cursor := k }) → last ≠ some id → Agrees g w c.world →
      Arrives g label id rest ⟨id :: rest, some ok, last, w⟩ c.outcomes b c' := by
  induction ids with
  | nil =>
    intro k ok c last w hk he hm hl ha
    cases he
    have hn := getElem?_of_drop_nil hk
    refine st.ends (.sequence { s with cursor := k + 1 }) hl ha hm (.sequence rfl)
      (fun _ => .of_ne_loop nofun) fun ctx => ?_
    simp [FlowNode.receive, Sequence.receive, hn]
    rfl
  | cons x ids ih =>
    intro k ok c last w hk he hm hl ha
    obtain ⟨⟨ok₁, c₁⟩, hx, he⟩ := Option.bind_eq_some_iff.1 he
    obtain ⟨hn, hk'⟩ := getElem?_of_drop hk
    refine st.proceeds (.sequence { s with cursor := k + 1 }) hev hl ha hm (.sequence rfl)
      (fun _ => .of_ne_loop nofun) (fun ctx => ?_) (List.mem_of_getElem? hn) hx ?_
    · simp [FlowNode.receive, Sequence.receive, hn]
      rfl
    · intro last w hl ha hm
      exact ih hk' he hm hl ha

theorem arrives_sequence {s : Sequence} (st : Site g id (.sequence s) rest)
    (hev : Simulated g label evaluate)
    (he : Course.inOrder evaluate false s.children c = some (b, c'))
    {last : Option NodeId} {w : World (FlowNode ⊕ τ)} (hl : last ≠ some id)
    (ha : Agrees g w c.world) :
    Arrives g label id rest ⟨id :: rest, none, last, w⟩ c.outcomes b c' := by
  cases hs : s.children with
  | nil =>
    rw [hs] at he
    cases he
    refine st.endsAtOnce (.sequence { s with cursor := 0 }) nofun hl ha (.sequence rfl)
      fun m hm ctx => ?_
    cases hm with
    | sequence h =>
      simp [FlowNode.execute, Sequence.execute, h, hs]
      rfl
  | cons x ids =>
    rw [hs] at he
    obtain ⟨⟨ok₁, c₁⟩, hx, he⟩ := Option.bind_eq_some_iff.1 he
    refine st.begins (.sequence { s with cursor := 0 }) hev nofun hl ha (.sequence rfl)
      (fun m hm ctx => ?_) (by simp [FlowNode.children, hs]) hx ?_
    · cases hm with
      | sequence h =>
        simp [FlowNode.execute, Sequence.execute, h, hs]
        rfl
    · intro last w hl ha hm
      exact sequence_rest st hev (by simp [hs]) he hm hl ha

/-- A child succeeded: so does the selector. -/
theorem selector_success {s : Selector} (st : Site g id (.selector s) rest) {k : Nat}
    {last : Option NodeId} {w : World (FlowNode ⊕ τ)}
    (hm : w.Holds id (.selector { s with cursor := k })) (hl : last ≠ some id)
    (ha : Agrees g w c.world) :
    Arrives g label id rest ⟨id :: rest, some true, last, w⟩ c.outcomes true c :=
  st.ends (.selector { s with cursor := k }) hl ha hm (.selector rfl) (fun hr => hr) fun _ => rfl

theorem selector_rest {s : Selector} (st : Site g id (.selector s) rest)
    (hev : Simulated g label evaluate) {ids : List NodeId} :
    ∀ {k : Nat} {ok : Bool} {c : Course (FlowNode ⊕ τ)} {last w}, s.children.drop (k + 1) = ids →
      (if ok then some (true, c) else Course.firstOf evaluate ids c) = some (b, c') →
      w.Holds id (.selector { s with cursor := k }) → last ≠ some id → Agrees g w c.world →
      Arrives g label id rest ⟨id :: rest, some ok, last, w⟩ c.outcomes b c' := by
  induction ids with
  | nil =>
    intro k ok c last w hk he hm hl ha
    cases ok with
    | true =>
      cases he
      exact selector_success st hm hl ha
    | false =>
      cases he
      have hn := getElem?_of_drop_nil hk
      refine st.ends (.selector { s with cursor := k + 1 }) hl ha hm (.selector rfl)
        (fun _ => .of_ne_loop nofun) fun ctx => ?_
      simp [FlowNode.receive, Selector.receive, hn]
      rfl
  | cons x ids ih =>
    intro k ok c last w hk he hm hl ha
    cases ok with
    | true =>
      cases he
      exact selector_success st hm hl ha
    | false =>
      obtain ⟨hn, hk'⟩ := getElem?_of_drop hk
      obtain ⟨⟨ok₁, c₁⟩, hx, he⟩ := Option.bind_eq_some_iff.1 he
      refine st.proceeds (.selector { s with cursor := k + 1 }) hev hl ha hm (.selector rfl)
        (fun _ => .of_ne_loop nofun) (fun ctx => ?_) (List.mem_of_getElem? hn) hx ?_
      · simp [FlowNode.receive, Selector.receive, hn]
        rfl
      · intro last w hl ha hm
        exact ih hk' he hm hl ha

theorem arrives_selector {s : Selector} (st : Site g id (.selector s) rest)
    (hev : Simulated g label evaluate) (he : Course.firstOf evaluate s.children c = some (b, c'))
    {last : Option NodeId} {w : World (FlowNode ⊕ τ)} (hl : last ≠ some id)
    (ha : Agrees g w c.world) :
    Arrives g label id rest ⟨id :: rest, none, last, w⟩ c.outcomes b c' := by
  cases hs : s.children with
  | nil =>
    rw [hs] at he
    cases he
    refine st.endsAtOnce (.selector { s with cursor := 0 }) nofun hl ha (.selector rfl)
      fun m hm ctx => ?_
    cases hm with
    | selector h =>
      simp [FlowNode.execute, Selector.execute, h, hs]
      rfl
  | cons x ids =>
    rw [hs] at he
    obtain ⟨⟨ok₁, c₁⟩, hx, he⟩ := Option.bind_eq_some_iff.1 he
    refine st.begins (.selector { s with cursor := 0 }) hev nofun hl ha (.selector rfl)
      (fun m hm ctx => ?_) (by simp [FlowNode.children, hs]) hx ?_
    · cases hm with
      | selector h =>
        simp [FlowNode.execute, Selector.execute, h, hs]
        rfl
    · intro last w hl ha hm
      exact selector_rest st hev (by simp [hs]) he hm hl ha

/-! ## Conditions and inverters -/

theorem arrives_condition {k : Condition} (st : Site g id (.condition k) rest)
    (hev : Simulated g label evaluate) (he : Course.branch evaluate k c = some (b, c'))
    {last : Option NodeId} {w : World (FlowNode ⊕ τ)} (hl : last ≠ some id)
    (ha : Agrees g w c.world) :
    Arrives g label id rest ⟨id :: rest, none, last, w⟩ c.outcomes b c' := by
  have hlike : ∀ branching, (FlowNode.condition k).Like (.condition { k with branching }) :=
    fun _ => .condition rfl rfl rfl
  obtain ⟨⟨ok, c₁⟩, hx, he⟩ := Option.bind_eq_some_iff.1 he
  refine st.begins (.condition { k with branching := false }) hev nofun hl ha (hlike _)
    (fun m hm ctx => ?_) (by simp [FlowNode.children, Condition.children]) hx ?_
  · cases hm with
    | @condition _ k' h₁ h₂ h₃ =>
      obtain ⟨condition, onTrue, onFalse, branching⟩ := k'
      simp only at h₁ h₂ h₃
      subst h₁ h₂ h₃
      rfl
  intro last w hl ha hm
  simp only at he
  split at he
  · next branch hb =>
    have hmem : branch ∈ (FlowNode.condition k).children := by
      have hc : branch ∈ k.onTrue.toList ++ k.onFalse.toList := by
        cases ok <;> simp_all
      exact List.mem_cons_of_mem _ hc
    refine st.proceeds (.condition { k with branching := true }) hev hl ha hm (hlike _)
      (fun _ => .of_ne_loop (by rintro _ ⟨⟩)) (fun ctx => ?_) hmem he ?_
    · simp [FlowNode.receive, Condition.receive, hb]
      rfl
    · intro last w hl ha hm
      exact st.ends (.condition { k with branching := true }) hl ha hm (hlike _) (fun hr => hr)
        fun _ => rfl
  · next hb =>
    cases he
    refine st.ends (.condition { k with branching := false }) hl ha hm (hlike _) (fun hr => hr)
      fun ctx => ?_
    simp [FlowNode.receive, Condition.receive, hb]
    rfl

theorem arrives_inverter {child : NodeId} (st : Site g id (.inverter child) rest)
    (hev : Simulated g label evaluate) (he : evaluate child c = some (b, c'))
    {last : Option NodeId} {w : World (FlowNode ⊕ τ)} (hl : last ≠ some id)
    (ha : Agrees g w c.world) :
    Arrives g label id rest ⟨id :: rest, none, last, w⟩ c.outcomes (!b) c' := by
  refine st.begins (.inverter child) hev nofun hl ha (.inverter child) (fun m hm ctx => ?_)
    (by simp [FlowNode.children]) he ?_
  · cases hm
    rfl
  intro last w hl ha hm
  exact st.ends (.inverter child) hl ha hm (.inverter child) (fun hr => hr) fun _ => rfl

end Composites

end BehaviorTree
