/-
Loops on a stack do what they mean.

A pass through the body is one induction, on the children that remain of it, and leads to
the spot where the last of them has come back. Around it goes another: on the iterations
that remain of a counted loop, and on the fuel of the plain evaluation of the others.
-/
import BehaviorTree.Proofs.Flow.Composites
import BehaviorTree.Proofs.Library.Children

namespace BehaviorTree

variable {τ : Type} [Node τ] {g : Graph (FlowNode ⊕ τ)} {label : StackLabel} {id : NodeId}
  {rest : List NodeId} {l l' : Loop} {c c₁ c' : Course (FlowNode ⊕ τ)} {b : Bool}
  {evaluate : NodeId → Course (FlowNode ⊕ τ) → Option (Bool × Course (FlowNode ⊕ τ))}

/-- The rest of a pass, from a spot where a child of the body is back. -/
theorem body_rest (st : Site g id (.loop l) rest) (hev : Simulated g label evaluate)
    (hk : l.kind.Like l'.kind) (hb : l'.body = l.body)
    (hnext : ∀ {i : Nat} {ok : Bool} {last w}, l.body.drop (i + 1) = [] → last ≠ some id →
      Agrees g w c₁.world → w.Holds id (.loop { l' with place := .body i }) →
      Arrives g label id rest ⟨id :: rest, some ok, last, w⟩ c₁.outcomes b c')
    {ids : List NodeId} :
    ∀ {i : Nat} {ok : Bool} {c : Course (FlowNode ⊕ τ)} {last w}, l.body.drop (i + 1) = ids →
      Course.pass evaluate ids c = some c₁ → last ≠ some id → Agrees g w c.world →
      w.Holds id (.loop { l' with place := .body i }) →
      Arrives g label id rest ⟨id :: rest, some ok, last, w⟩ c.outcomes b c' := by
  induction ids with
  | nil =>
    intro i ok c last w hi he hl ha hm
    cases he
    exact hnext hi hl ha hm
  | cons x ids ih =>
    intro i ok c last w hi he hl ha hm
    obtain ⟨⟨ok₁, c₂⟩, hx, he⟩ := Option.bind_eq_some_iff.1 he
    obtain ⟨hn, hi'⟩ := getElem?_of_drop hi
    have hmem : x ∈ (FlowNode.loop l).children :=
      Loop.mem_children_of_mem_body (List.mem_of_getElem? hn)
    refine st.proceeds (.loop { l' with place := .body (i + 1) }) hev hl ha hm (.loop hk hb)
      (fun hr => hr.loop rfl) (fun ctx => ?_) hmem hx ?_
    · simp [FlowNode.receive, Loop.receive, hb, hn]
      rfl
    · intro last w hl ha hm
      exact ih hi' he hl ha hm

/-- A pass, from a turn that enters the body. -/
theorem Site.pass {first : NodeId} {ids : List NodeId} {result : Option Bool}
    {last : Option NodeId} {w w₁ : World (FlowNode ⊕ τ)} (l' : Loop)
    (st : Site g id (.loop l) rest) (hev : Simulated g label evaluate)
    (hk : l.kind.Like l'.kind) (hb : l'.body = l.body)
    (hbody : l.body = first :: ids) (he : Course.pass evaluate l.body c = some c₁)
    (hl : last ≠ some id) (ha : Agrees g w c.world)
    (ht : w.Turns id result w₁ (.loop { l' with place := .body 0 }) .noReturn [first])
    (hnext : ∀ {i : Nat} {ok : Bool} {last w}, l.body.drop (i + 1) = [] → last ≠ some id →
      Agrees g w c₁.world → w.Holds id (.loop { l' with place := .body i }) →
      Arrives g label id rest ⟨id :: rest, some ok, last, w⟩ c₁.outcomes b c') :
    Arrives g label id rest ⟨id :: rest, result, last, w⟩ c.outcomes b c' := by
  rw [hbody] at he
  obtain ⟨⟨ok, c₂⟩, hx, he⟩ := Option.bind_eq_some_iff.1 he
  have hmem : first ∈ (FlowNode.loop l).children :=
    Loop.mem_children_of_mem_body (by simp [hbody])
  refine st.call hev hl ha ht (.loop hk hb) hmem hx ?_
  intro last w hl ha hm
  exact body_rest st hev hk hb hnext (by simp [hbody]) he hl ha hm

/-- A child of the body is back, and none is left: the pass is over. -/
theorem receive_last (l' : Loop) {i : Nat} {ok : Bool} {ctx : Context} (hb : l'.body = l.body)
    (hi : l.body.drop (i + 1) = []) :
    FlowNode.receive (.loop { l' with place := .body i }) ctx ok
      = (Loop.nextIteration { l' with place := .body i } ctx).map .loop := by
  simp [FlowNode.receive, Loop.receive, hb, getElem?_of_drop_nil hi]

/-! ## Counted loops -/

/-- From a spot where a pass is over: `j` more of them. -/
theorem times_rest (st : Site g id (.loop l) rest) (hev : Simulated g label evaluate)
    (hk : l.kind.Like l'.kind) (hb : l'.body = l.body) {field : NumberField}
    (hkind : l'.kind = .times field) {first : NodeId} {ids : List NodeId}
    (hbody : l.body = first :: ids) {j : Nat} :
    ∀ {k i : Nat} {ok : Bool} {c : Course (FlowNode ⊕ τ)} {last w}, l.body.drop (i + 1) = [] →
      Course.times evaluate l.body j c = some c' → last ≠ some id → Agrees g w c.world →
      w.Holds id (.loop { l' with place := .body i, iteration := k, count := k + 1 + j }) →
      Arrives g label id rest ⟨id :: rest, some ok, last, w⟩ c.outcomes true c' := by
  induction j with
  | zero =>
    intro k i ok c last w hi he hl ha hm
    cases he
    refine st.ends (.loop { l' with place := .body i, iteration := k + 1, count := k + 1 }) hl ha hm
      (.loop hk hb) (fun hr => hr.loop rfl) fun ctx => ?_
    rw [receive_last { l' with iteration := k, count := k + 1 } hb hi]
    simp [Loop.nextIteration, hkind]
    rfl
  | succ j ih =>
    intro k i ok c last w hi he hl ha hm
    obtain ⟨c₁, hp, he⟩ := Option.bind_eq_some_iff.1 he
    obtain ⟨w₁, ht⟩ := Site.receive_call ok
      (.loop { l' with place := .body 0, iteration := k + 1, count := k + 1 + (j + 1) }) first ha hm
      (fun hr => hr.loop rfl) fun ctx => by
        rw [receive_last { l' with iteration := k, count := k + 1 + (j + 1) } hb hi]
        simp [Loop.nextIteration, hkind, Loop.enterBody, hb, hbody]
        rfl
    refine st.pass { l' with iteration := k + 1, count := k + 1 + (j + 1) } hev hk hb hbody hp hl ha
      ht ?_
    intro i ok last w hi hl ha hm
    refine ih (k := k + 1) hi he hl ha ?_
    rwa [Nat.add_assoc (k + 1) 1 j, Nat.add_comm 1 j]

/-! ## Loops on a condition -/

/-- A pass is over, and the loop asks its condition. -/
theorem receive_check {i k : Nat} {ok : Bool} {c : Course (FlowNode ⊕ τ)}
    {w : World (FlowNode ⊕ τ)} {condition : NodeId} (hb : l'.body = l.body)
    (hkind : l'.kind = .whileDo condition ∨ l'.kind = .doWhile condition)
    (hi : l.body.drop (i + 1) = []) (ha : Agrees g w c.world)
    (hm : w.Holds id (.loop { l' with place := .body i, iteration := k })) :
    ∃ w₁, w.Turns id (some ok) w₁ (.loop { l' with place := .condition, iteration := k + 1 })
      .noReturn [condition] := by
  refine Site.receive_call ok _ condition ha hm (fun hr => hr.loop rfl) fun ctx => ?_
  rw [receive_last { l' with iteration := k } hb hi]
  rcases hkind with h | h <;> simp [Loop.nextIteration, h, Loop.check] <;> rfl

/-- From a turn that asks the condition. -/
theorem whileHolds_rest (st : Site g id (.loop l) rest) (hev : Simulated g label evaluate)
    (hk : l.kind.Like l'.kind) (hb : l'.body = l.body) {condition : NodeId}
    (hkind : l'.kind = .whileDo condition ∨ l'.kind = .doWhile condition)
    {first : NodeId} {ids : List NodeId} (hbody : l.body = first :: ids) {fuel : Nat} :
    ∀ {k : Nat} {result : Option Bool} {c : Course (FlowNode ⊕ τ)} {last w w₁},
      Course.whileHolds evaluate condition l.body fuel c = some c' → last ≠ some id →
      Agrees g w c.world →
      w.Turns id result w₁ (.loop { l' with place := .condition, iteration := k }) .noReturn
        [condition] →
      Arrives g label id rest ⟨id :: rest, result, last, w⟩ c.outcomes true c' := by
  have hmem : condition ∈ (FlowNode.loop l).children := by
    rcases hkind with h | h <;> rw [h] at hk <;> cases hlk : l.kind <;> rw [hlk] at hk <;>
      cases hk <;> simp [FlowNode.children, Loop.children, hlk]
  induction fuel with
  | zero =>
    intro k result c last w w₁ he
    cases he
  | succ fuel ih =>
    intro k result c last w w₁ he hl ha ht
    obtain ⟨⟨ok, c₁⟩, hx, he⟩ := Option.bind_eq_some_iff.1 he
    refine st.call hev hl ha ht (.loop hk hb) hmem hx ?_
    intro last w hl ha hm
    simp only at he
    split at he
    next hok =>
      obtain ⟨c₂, hp, he⟩ := Option.bind_eq_some_iff.1 he
      obtain ⟨w₁, ht⟩ := Site.receive_call ok
        (.loop { l' with place := .body 0, iteration := k }) first ha hm (fun hr => hr.loop rfl)
        fun ctx => by
          simp [FlowNode.receive, Loop.receive, Loop.enterBody, hok, hb, hbody]
          rfl
      refine st.pass { l' with iteration := k } hev hk hb hbody hp hl ha ht ?_
      intro i ok last w hi hl ha hm
      obtain ⟨w₁, ht⟩ := receive_check hb hkind hi ha hm
      exact ih he hl ha ht
    next hok =>
      cases he
      refine st.ends (.loop { l' with place := .condition, iteration := k }) hl ha hm (.loop hk hb)
        (fun hr => hr.loop rfl) fun ctx => ?_
      simp [FlowNode.receive, Loop.receive, hok]
      rfl

/-! ## Executing a loop -/

section Execute

variable {last : Option NodeId} {w : World (FlowNode ⊕ τ)}

/-- A loop that is executed, given what it does once it is bound. -/
theorem Site.execute_loop (f : Loop → Loop) (status : Status) (calls : List NodeId)
    (st : Site g id (.loop l) rest) (ha : Agrees g w c.world)
    (hc : (FlowNode.loop l).Counts c.world.blackboard) (hf : ∀ l, (f l).kind = l.kind)
    (hd : ∀ l', l.kind.Like l'.kind → l'.body = l.body → (FlowNode.loop l').Ready →
      FlowNode.Does (FlowNode.loop l').execute c.world.blackboard (.loop (f l')) status calls) :
    ∃ w₁ l', l.kind.Like l'.kind ∧ l'.body = l.body ∧
      w.Turns id none w₁ (.loop (f l')) status calls := by
  obtain ⟨w₁, m', ht, l', hk, hb, rfl⟩ := st.execute
    (Q := fun m => ∃ l' : Loop, l.kind.Like l'.kind ∧ l'.body = l.body ∧ m = .loop (f l'))
    status calls ha hc fun m hm hr => by
      cases hm with
      | @loop _ l' hk hb => exact ⟨_, ⟨l', hk, hb, rfl⟩, hr.loop (hf l'), hd l' hk hb hr⟩
  exact ⟨w₁, l', hk, hb, ht⟩

/-- With an empty body, a loop succeeds at once. -/
theorem arrives_empty (st : Site g id (.loop l) rest)
    (hc : (FlowNode.loop l).Counts c.world.blackboard) (hbody : l.body = []) (hl : last ≠ some id)
    (ha : Agrees g w c.world) :
    Arrives g label id rest ⟨id :: rest, none, last, w⟩ c.outcomes true c := by
  obtain ⟨w₁, l', hk, hb, ht⟩ := st.execute_loop (fun l => { l with iteration := 0 })
    (.of true) [] ha hc (fun _ => rfl) fun l' _ hb _ => FlowNode.does_plain fun ctx _ => by
      simp [FlowNode.execute, Loop.execute, hb, hbody]
      rfl
  exact st.finish hl ha ht (.loop hk hb)

theorem arrives_times {field : NumberField} {x : Float32} {first : NodeId} {ids : List NodeId}
    (st : Site g id (.loop l) rest) (hev : Simulated g label evaluate)
    (hkind : l.kind = .times field) (hx : field.value? c.world.blackboard = some x)
    (hbody : l.body = first :: ids)
    (he : Course.times evaluate l.body (Single.of x).count c = some c') (hl : last ≠ some id)
    (ha : Agrees g w c.world) :
    Arrives g label id rest ⟨id :: rest, none, last, w⟩ c.outcomes true c' := by
  have hc := FlowNode.counts_of_value? hkind hx
  cases hn : (Single.of x).count with
  | zero =>
    rw [hn] at he
    cases he
    obtain ⟨w₁, l', hk, hb, ht⟩ := st.execute_loop
      (fun l => { l with iteration := 0, count := 0 }) (.of true) [] ha hc
      (fun _ => rfl) fun l' hk hb hr => FlowNode.does_plain fun ctx hctx => by
        obtain ⟨f, hf, hrd⟩ := hr.read hk hkind hx
        simp [FlowNode.execute, Loop.execute, hb, hbody, hf, hctx, hrd, hn]
        rfl
    exact st.finish hl ha ht (.loop hk hb)
  | succ j =>
    rw [hn] at he
    obtain ⟨c₁, hp, he⟩ := Option.bind_eq_some_iff.1 he
    obtain ⟨w₁, l', hk, hb, ht⟩ := st.execute_loop
      (fun l => { l with place := .body 0, iteration := 0, count := j + 1 }) .noReturn [first] ha hc
      (fun _ => rfl) fun l' hk hb hr => FlowNode.does_call fun ctx hctx => by
        obtain ⟨f, hf, hrd⟩ := hr.read hk hkind hx
        simp [FlowNode.execute, Loop.execute, Loop.enterBody, hb, hbody, hf, hctx, hrd, hn]
        rfl
    obtain ⟨f, hf, -⟩ := (hkind ▸ hk).of_times
    refine st.pass { l' with iteration := 0, count := j + 1 } hev hk hb hbody hp hl ha ht ?_
    intro i ok last w hi hl ha hm
    refine times_rest st hev hk hb hf hbody (k := 0) hi he hl ha ?_
    rwa [Nat.zero_add, Nat.add_comm 1 j]

theorem arrives_while {fuel : Nat} {condition first : NodeId} {ids : List NodeId}
    (st : Site g id (.loop l) rest) (hev : Simulated g label evaluate)
    (hkind : l.kind = .whileDo condition) (hbody : l.body = first :: ids)
    (he : Course.whileHolds evaluate condition l.body fuel c = some c') (hl : last ≠ some id)
    (ha : Agrees g w c.world) :
    Arrives g label id rest ⟨id :: rest, none, last, w⟩ c.outcomes true c' := by
  have hwhile : ∀ {k}, l.kind.Like k → k = .whileDo condition := fun hk =>
    (hkind ▸ hk).of_whileDo
  obtain ⟨w₁, l', hk, hb, ht⟩ := st.execute_loop
    (fun l => { l with place := .condition, iteration := 0 }) .noReturn [condition] ha
    (FlowNode.counts_of_condition (.inl hkind)) (fun _ => rfl) fun l' hk hb _ =>
      FlowNode.does_call fun ctx _ => by
        simp [FlowNode.execute, Loop.execute, Loop.check, hb, hbody, hwhile hk]
        rfl
  exact whileHolds_rest st hev hk hb (.inl (hwhile hk)) hbody he hl ha ht

theorem arrives_doWhile {fuel : Nat} {condition first : NodeId} {ids : List NodeId}
    (st : Site g id (.loop l) rest) (hev : Simulated g label evaluate)
    (hkind : l.kind = .doWhile condition) (hbody : l.body = first :: ids)
    (hp : Course.pass evaluate l.body c = some c₁)
    (he : Course.whileHolds evaluate condition l.body fuel c₁ = some c') (hl : last ≠ some id)
    (ha : Agrees g w c.world) :
    Arrives g label id rest ⟨id :: rest, none, last, w⟩ c.outcomes true c' := by
  have hdo : ∀ {k}, l.kind.Like k → k = .doWhile condition := fun hk => (hkind ▸ hk).of_doWhile
  obtain ⟨w₁, l', hk, hb, ht⟩ := st.execute_loop
    (fun l => { l with place := .body 0, iteration := 0 }) .noReturn [first] ha
    (FlowNode.counts_of_condition (.inr hkind)) (fun _ => rfl) fun l' hk hb _ =>
      FlowNode.does_call fun ctx _ => by
        simp [FlowNode.execute, Loop.execute, Loop.enterBody, hb, hbody, hdo hk]
        rfl
  refine st.pass { l' with iteration := 0 } hev hk hb hbody hp hl ha ht ?_
  -- the body ran once, and from here on this is a loop that asks first
  intro i ok last w hi hl ha hm
  obtain ⟨w₁, ht⟩ := receive_check (k := 0) hb (.inr (hdo hk)) hi ha hm
  exact whileHolds_rest st hev hk hb (.inr (hdo hk)) hbody he hl ha ht

omit [Node τ] in
theorem loop_of_empty {fuel : Nat} (hbody : l.body = [])
    (he : Course.loop evaluate fuel l c = some c') :
    c' = c ∧ (FlowNode.loop l).Counts c.world.blackboard := by
  unfold Course.loop at he
  split at he
  next field hkind =>
    obtain ⟨x, hx, he⟩ := Option.bind_eq_some_iff.1 he
    rw [if_pos (by simp [hbody])] at he
    exact ⟨(Option.some.inj he).symm, FlowNode.counts_of_value? hkind hx⟩
  next condition hkind =>
    rw [if_pos (by simp [hbody])] at he
    exact ⟨(Option.some.inj he).symm, FlowNode.counts_of_condition (.inl hkind)⟩
  next condition hkind =>
    rw [if_pos (by simp [hbody])] at he
    exact ⟨(Option.some.inj he).symm, FlowNode.counts_of_condition (.inr hkind)⟩

theorem arrives_loop {fuel : Nat} (st : Site g id (.loop l) rest)
    (hev : Simulated g label evaluate) (he : Course.loop evaluate fuel l c = some c')
    (hl : last ≠ some id) (ha : Agrees g w c.world) :
    Arrives g label id rest ⟨id :: rest, none, last, w⟩ c.outcomes true c' := by
  cases hbody : l.body with
  | nil =>
    obtain ⟨rfl, hc⟩ := loop_of_empty hbody he
    exact arrives_empty st hc hbody hl ha
  | cons first ids =>
    have hne : ¬l.body.isEmpty := by simp [hbody]
    unfold Course.loop at he
    split at he
    next field hkind =>
      obtain ⟨x, hx, he⟩ := Option.bind_eq_some_iff.1 he
      rw [if_neg hne] at he
      exact arrives_times st hev hkind hx hbody he hl ha
    next condition hkind =>
      rw [if_neg hne] at he
      exact arrives_while st hev hkind hbody he hl ha
    next condition hkind =>
      rw [if_neg hne] at he
      obtain ⟨c₁, hp, he⟩ := Option.bind_eq_some_iff.1 he
      exact arrives_doWhile st hev hkind hbody hp he hl ha

end Execute

end BehaviorTree
