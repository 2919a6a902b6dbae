/-
What it means that a graph holds together.

A node is added after its children, and no node is the child of two. `mentions` lists who
names whom as a child, in the order of addition; a mention is wrong if the child was not there
before its parent, or if it was mentioned before. Building notes a fault for every wrong
mention while the later nodes are not known yet, and gives every child to the first node that
claims it. So the first fault is the first wrong mention of the graph as it is in the end,
and a graph without faults is a forest, in which the nodes under a root form a tree.
-/
import Mathlib.Data.List.Induction
import Mathlib.Data.List.Nodup
import BehaviorTree.Proofs.Graph.Placement

namespace BehaviorTree

/-- Who names whom as a child: the parent, and the child. -/
abbrev Mention := NodeId × NodeId

namespace Mention

/-- What is wrong with a mention that comes after those of `before`. -/
inductive Violates (before : List Mention) : Mention → GraphError → Prop
  | unknown {p c : NodeId} (h : p.index ≤ c.index) : Violates before (p, c) (.unknownChild p c)
  | claimed {p c first : NodeId} (h : c.index < p.index) (hf : (first, c) ∈ before) :
      Violates before (p, c) (.multipleParents c first p)

/-- No mention is wrong. -/
def Clean (ms : List Mention) : Prop :=
  ∀ before m after, ms = before ++ m :: after → ∀ e, ¬Violates before m e

/-- The error is what is wrong with the first mention that is. -/
def FirstViolation (ms : List Mention) (e : GraphError) : Prop :=
  ∃ before m after, ms = before ++ m :: after ∧ Clean before ∧ Violates before m e

variable {ms more before : List Mention} {m : Mention} {e e' : GraphError}

theorem clean_nil : Clean [] := fun before m after h => by simp at h

theorem clean_snoc : Clean (ms ++ [m]) ↔ Clean ms ∧ ∀ e, ¬Violates ms m e := by
  constructor
  · refine fun h => ⟨fun before x after he => ?_, h ms m [] rfl⟩
    exact h before x (after ++ [m]) (by simp [he])
  · rintro ⟨hms, hm⟩ before x after he
    rcases List.eq_nil_or_concat after with rfl | ⟨after, y, rfl⟩
    · obtain ⟨rfl, hx⟩ := List.append_inj' he rfl
      exact List.singleton_inj.1 hx ▸ hm
    · have hsplit : ms ++ [m] = (before ++ x :: after) ++ [y] := by simpa using he
      exact hms before x after (List.append_inj' hsplit rfl).1

theorem not_violates_iff :
    (∀ e, ¬Violates before m e) ↔ m.2.index < m.1.index ∧ m.2 ∉ before.map Prod.snd := by
  obtain ⟨p, c⟩ := m
  constructor
  · intro h
    have hlt : c.index < p.index := Nat.lt_of_not_le fun hle => h _ (.unknown hle)
    refine ⟨hlt, fun hc => ?_⟩
    obtain ⟨⟨first, c'⟩, hm, rfl⟩ := List.mem_map.1 hc
    exact h _ (.claimed hlt hm)
  · rintro ⟨hlt, hc⟩ e he
    cases he with
    | unknown hle => exact Nat.not_le_of_lt hlt hle
    | @claimed _ _ first _ hf => exact hc (List.mem_map.2 ⟨(first, c), hf, rfl⟩)

/-- Nothing is wrong as long as every child comes before its parent, and is mentioned once. -/
theorem clean_iff :
    Clean ms ↔ (∀ m ∈ ms, m.2.index < m.1.index) ∧ (ms.map Prod.snd).Nodup := by
  induction ms using List.reverseRecOn with
  | nil => simp [clean_nil]
  | append_singleton ms m ih =>
    rw [clean_snoc, ih, not_violates_iff, List.map_append, List.map_singleton,
      List.nodup_append]
    constructor
    · rintro ⟨⟨hlow, hnd⟩, hm, hnot⟩
      refine ⟨fun x hx => ?_, hnd, List.nodup_singleton _, fun a ha b hb => ?_⟩
      · rcases List.mem_append.1 hx with hx | hx
        · exact hlow x hx
        · exact List.mem_singleton.1 hx ▸ hm
      · rw [List.mem_singleton.1 hb]
        exact fun he => hnot (he ▸ ha)
    · rintro ⟨hlow, hnd, -, hne⟩
      refine ⟨⟨fun x hx => hlow x (by simp [hx]), hnd⟩, hlow m (by simp), fun hm => ?_⟩
      exact hne m.2 hm m.2 (by simp) rfl

/-- Who first mentioned a child is known once nothing was wrong before. -/
theorem Clean.violates_unique (h : Clean before) (he : Violates before m e)
    (he' : Violates before m e') : e = e' := by
  cases he with
  | unknown hle =>
    cases he' with
    | unknown => rfl
    | claimed hlt _ => exact absurd hle (Nat.not_le_of_lt hlt)
  | claimed hlt hf =>
    cases he' with
    | unknown hle => exact absurd hle (Nat.not_le_of_lt hlt)
    | claimed _ hf' =>
      have heq := List.inj_on_of_nodup_map (clean_iff.1 h).2 hf hf' rfl
      rw [(Prod.mk.inj heq).1]

theorem FirstViolation.append (h : FirstViolation ms e) : FirstViolation (ms ++ more) e := by
  obtain ⟨before, m, after, rfl, hc, hv⟩ := h
  exact ⟨before, m, after ++ more, by simp, hc, hv⟩

theorem FirstViolation.not_clean (h : FirstViolation ms e) : ¬Clean ms := by
  obtain ⟨before, m, after, rfl, -, hv⟩ := h
  exact fun hc => hc before m after rfl e hv

/-- There is no wrong mention before the first one. -/
theorem FirstViolation.unique (h : FirstViolation ms e) (h' : FirstViolation ms e') : e = e' := by
  obtain ⟨before, m, after, rfl, hc, hv⟩ := h
  obtain ⟨before', m', after', heq, hc', hv'⟩ := h'
  rcases List.append_eq_append_iff.1 heq with ⟨mid, rfl, hmid⟩ | ⟨mid, rfl, hmid⟩
  · cases mid with
    | nil =>
      obtain ⟨rfl, -⟩ := List.cons.inj hmid
      rw [List.append_nil] at hv'
      exact hc.violates_unique hv hv'
    | cons x mid =>
      obtain ⟨rfl, -⟩ := List.cons.inj hmid
      exact absurd hv (hc' before m mid rfl e)
  · cases mid with
    | nil =>
      obtain ⟨rfl, -⟩ := List.cons.inj hmid
      rw [List.append_nil] at hv
      exact hc'.violates_unique hv hv'
    | cons x mid =>
      obtain ⟨rfl, -⟩ := List.cons.inj hmid
      exact absurd hv' (hc before' m' mid rfl e')

/-- That a child is added later makes an early mention of it no better, and a later one no
worse. -/
example : FirstViolation [(⟨1⟩, ⟨2⟩), (⟨3⟩, ⟨2⟩)] (.unknownChild ⟨1⟩ ⟨2⟩) :=
  ⟨[], (⟨1⟩, ⟨2⟩), [(⟨3⟩, ⟨2⟩)], rfl, clean_nil, .unknown (by decide)⟩

end Mention

namespace Graph

variable {σ : Type} [Node σ] {g g' : Graph σ} {root : NodeId}

/-- Every mention of a child: by the order of the nodes, and for each by that of its children. -/
def mentions (g : Graph σ) : List Mention :=
  (List.range g.size).flatMap fun i => (g.children ⟨i⟩).map fun c => (⟨i⟩, c)

/-- Every child is older than its parent, and no node is listed twice as a child. -/
structure HoldsTogether (g : Graph σ) : Prop where
  lower : ∀ p c, c ∈ g.children p → c.index < p.index
  once : ((List.range g.size).flatMap fun i => g.children ⟨i⟩).Nodup

/-! ## Mentions -/

theorem index_lt_of_mem_children {p c : NodeId} (h : c ∈ g.children p) : p.index < g.size := by
  unfold children at h
  split at h
  · cases h
  · next s hs => exact index_lt_of_slot? hs

theorem mem_mentions {p c : NodeId} : (p, c) ∈ g.mentions ↔ c ∈ g.children p := by
  simp only [mentions, List.mem_flatMap, List.mem_range, List.mem_map, Prod.mk.injEq]
  constructor
  · rintro ⟨i, -, x, hx, rfl, rfl⟩
    exact hx
  · exact fun h => ⟨p.index, index_lt_of_mem_children h, c, h, rfl, rfl⟩

theorem map_snd_mentions :
    g.mentions.map Prod.snd = (List.range g.size).flatMap fun i => g.children ⟨i⟩ := by
  simp [mentions, List.map_flatMap, Function.comp_def]

theorem clean_mentions_iff : Mention.Clean g.mentions ↔ g.HoldsTogether := by
  rw [Mention.clean_iff, map_snd_mentions]
  constructor
  · exact fun ⟨hlow, hnd⟩ => ⟨fun p c hc => hlow (p, c) (mem_mentions.2 hc), hnd⟩
  · exact fun h => ⟨fun m hm => h.lower m.1 m.2 (mem_mentions.1 hm), h.once⟩

theorem mentions_congr (hs : g'.size = g.size) (hc : ∀ p, g'.children p = g.children p) :
    g'.mentions = g.mentions := by
  simp only [mentions, hs, hc]

theorem size_add (g : Graph σ) (name : String) (node : σ) :
    (g.add name node).1.size = g.size + 1 := by
  have hc := claims_foldl ⟨g.size⟩ (Node.children node) g
  simp only [add, size, Array.size_push]
  exact congrArg (· + 1) hc.size

theorem slot?_add (g : Graph σ) (name : String) (node : σ) (id : NodeId) :
    (g.add name node).1.slot? id = if id.index = g.size then some { name, node }
      else ((Node.children node).foldl (claim ⟨g.size⟩) g).slot? id := by
  have hp := slot?_push ((Node.children node).foldl (claim ⟨g.size⟩) g) { name, node } id
  rwa [(claims_foldl ⟨g.size⟩ (Node.children node) g).size] at hp

theorem children_add (g : Graph σ) (name : String) (node : σ) (p : NodeId) :
    (g.add name node).1.children p
      = if p.index = g.size then Node.children node else g.children p := by
  rw [children_eq, slot?_add]
  split
  · rfl
  · rw [← children_eq, (claims_foldl ⟨g.size⟩ (Node.children node) g).children]

theorem mentions_add (g : Graph σ) (name : String) (node : σ) :
    (g.add name node).1.mentions
      = g.mentions ++ (Node.children node).map fun c => (⟨g.size⟩, c) := by
  have hold : ∀ i ∈ List.range g.size, (g.add name node).1.children ⟨i⟩ = g.children ⟨i⟩ := by
    intro i hi
    rw [children_add, if_neg (Nat.ne_of_lt (List.mem_range.1 hi))]
  have hnew : (g.add name node).1.children ⟨g.size⟩ = Node.children node := by
    rw [children_add, if_pos rfl]
  simp only [mentions, size_add, List.range_succ, List.flatMap_append, List.flatMap_cons,
    List.flatMap_nil, List.append_nil, hnew]
  congr 1
  exact List.flatMap_congr fun i hi => by rw [hold i hi]

/-! ## Faults are the wrong mentions -/

/-- The graph has noted what is wrong with the mentions, the first one first; as long as
nothing is, the parents are just what was mentioned. -/
structure Judges (g : Graph σ) (ms : List Mention) : Prop where
  clean : g.faults = [] → Mention.Clean ms
  parent : g.faults = [] → ∀ p c, g.parent? c = some p ↔ (p, c) ∈ ms
  first : ∀ e, g.faults.head? = some e → Mention.FirstViolation ms e

namespace Judges

variable {ms : List Mention} {e : GraphError}

omit [Node σ]

/-- A fault after another one is not the first. -/
theorem late (h : g.Judges ms) (hf : g.faults ≠ []) (hpre : g'.faults.head? = g.faults.head?)
    (m : Mention) : g'.Judges (ms ++ [m]) := by
  have hne : g'.faults ≠ [] := fun hn => by
    rw [hn] at hpre
    exact hf (List.head?_eq_none_iff.1 hpre.symm)
  exact ⟨fun hn => absurd hn hne, fun hn => absurd hn hne, fun e he =>
    (h.first e (hpre ▸ he)).append⟩

/-- The first fault is for a mention that is wrong. -/
theorem fault (h : g.Judges ms) (hf : g.faults = []) {m : Mention}
    (hv : Mention.Violates ms m e) (hg' : g'.faults = [e]) : g'.Judges (ms ++ [m]) := by
  refine ⟨fun hn => ?_, fun hn => ?_, fun e' he' => ?_⟩
  · simp [hg'] at hn
  · simp [hg'] at hn
  · obtain rfl : e = e' := by simpa [hg'] using he'
    exact ⟨ms, m, [], rfl, h.clean hf, hv⟩

/-- A node that nobody mentioned gets its parent. -/
theorem fresh (h : g.Judges ms) (hf : g.faults = []) {id c : NodeId} {slot : Slot σ}
    (hs : g.slot? c = some slot) (hp : slot.parent = none) (hlt : c.index < id.index) :
    (g.modify c fun s => { s with parent := some id }).Judges (ms ++ [(id, c)]) := by
  have hnone : g.parent? c = none := by simp [parent?, hs, hp]
  have hnot : c ∉ ms.map Prod.snd := fun hc => by
    obtain ⟨⟨p, c'⟩, hm, rfl⟩ := List.mem_map.1 hc
    rw [(h.parent hf p c').2 hm] at hnone
    cases hnone
  refine ⟨fun _ => ?_, fun _ p x => ?_, fun e he => ?_⟩
  · exact Mention.clean_snoc.2 ⟨h.clean hf, Mention.not_violates_iff.2 ⟨hlt, hnot⟩⟩
  · rw [List.mem_append, List.mem_singleton, ← h.parent hf, parent?, slot?_modify]
    by_cases hx : x = c
    · subst hx
      simp [hs, hnone, eq_comm]
    · simp [hx, parent?]
  · simp [modify, hf] at he

theorem claim (h : g.Judges ms) {id : NodeId} (hid : id.index = g.size) (c : NodeId) :
    (claim id g c).Judges (ms ++ [(id, c)]) := by
  by_cases hf : g.faults = []
  · unfold Graph.claim
    split
    · next hs =>
      have hc : g.contains c = false := by rw [← isSome_slot?, hs]; rfl
      have hle : id.index ≤ c.index := by simpa [contains, hid] using hc
      exact h.fault hf (.unknown hle) (by simp [hf])
    next slot hs =>
    have hlt : c.index < id.index := hid ▸ index_lt_of_slot? hs
    split
    · next first hp =>
      have hm : (first, c) ∈ ms := (h.parent hf first c).1 (by simp [parent?, hs, hp])
      exact h.fault hf (.claimed hlt hm) (by simp [hf])
    · next hp => exact h.fresh hf hs hp hlt
  · refine h.late hf ?_ _
    rcases claim_cases id g c with ⟨e, he⟩ | ⟨-, -, he⟩
    · rw [he]
      exact List.head?_append_of_ne_nil _ hf
    · rw [he]
      rfl

end Judges

theorem Judges.claims {ms : List Mention} (h : g.Judges ms) {id : NodeId} (hid : id.index = g.size)
    (cs : List NodeId) : (cs.foldl (Graph.claim id) g).Judges (ms ++ cs.map fun c => (id, c)) := by
  induction cs generalizing g ms with
  | nil => simpa using h
  | cons c cs ih => simpa using ih (h.claim hid c) (hid.trans (claims_claim id g c).size.symm)

theorem parent?_add (g : Graph σ) (name : String) (node : σ) (c : NodeId) :
    (g.add name node).1.parent? c
      = ((Node.children node).foldl (claim ⟨g.size⟩) g).parent? c := by
  have hsize := (claims_foldl ⟨g.size⟩ (Node.children node) g).size
  rw [parent?, slot?_add]
  split
  · next hc =>
    have hnone : ((Node.children node).foldl (claim ⟨g.size⟩) g).slot? c = none := by
      rw [← Option.not_isSome_iff_eq_none, isSome_slot?, contains, hsize, hc]
      simp
    simp [parent?, hnone]
  · rfl

theorem Judges.add (h : g.Judges g.mentions) (name : String) (node : σ) :
    (g.add name node).1.Judges (g.add name node).1.mentions := by
  have hc := h.claims (show (⟨g.size⟩ : NodeId).index = g.size from rfl) (Node.children node)
  rw [mentions_add]
  refine ⟨hc.clean, fun hf p c => ?_, hc.first⟩
  rw [parent?_add]
  exact hc.parent hf p c

theorem Judges.attach {owner service : NodeId} (h : g.Judges g.mentions)
    (ha : g.attach owner service = .ok g') : g'.Judges g'.mentions := by
  obtain ⟨-, -, -, rfl⟩ := attach_ok ha
  rw [mentions_congr (by simp) fun p => children_attach p]
  refine ⟨h.clean, fun hf p c => ?_, h.first⟩
  rw [parent?_attach]
  exact h.parent hf p c

theorem Built.judges (h : Built g) : g.Judges g.mentions := by
  induction h with
  | empty => exact ⟨fun _ => Mention.clean_nil, fun _ p c => ⟨nofun, nofun⟩, nofun⟩
  | add _ name node ih => exact ih.add name node
  | attach _ _ _ ha ih => exact ih.attach ha

theorem Built.faults_eq_nil_iff (h : Built g) : g.faults = [] ↔ g.HoldsTogether := by
  rw [← clean_mentions_iff]
  refine ⟨h.judges.clean, fun hc => ?_⟩
  cases hf : g.faults with
  | nil => rfl
  | cons e rest => exact absurd hc (h.judges.first e (by simp [hf])).not_clean

theorem Built.head?_faults_iff (h : Built g) (e : GraphError) :
    g.faults.head? = some e ↔ Mention.FirstViolation g.mentions e := by
  refine ⟨h.judges.first e, fun hv => ?_⟩
  cases hf : g.faults with
  | nil => exact absurd (h.judges.clean hf) hv.not_clean
  | cons e' rest => exact congrArg some ((h.judges.first e' (by simp [hf])).unique hv)

/-! ## What validation answers -/

omit [Node σ] in
theorem validate_eq_ok_iff : g.validate root = .ok () ↔ g.contains root ∧ g.faults = [] := by
  refine ⟨faults_of_validate, fun ⟨hc, hf⟩ => ?_⟩
  simp [validate, hc, hf]

omit [Node σ] in
theorem validate_eq_error_iff {e : GraphError} : g.validate root = .error e ↔
    ¬g.contains root ∧ e = .unknownRoot root ∨ g.contains root ∧ g.faults.head? = some e := by
  unfold validate
  cases hc : g.contains root <;> cases hf : g.faults <;> simp [eq_comm]

/-! ## The tree under a root -/

/-- What is met on the way down from a node: the node, and then for each of its children in
turn what is met on the way down from there. -/
inductive Spans (g : Graph σ) : NodeId → List NodeId → Prop
  | node {id : NodeId} {below : List (List NodeId)}
      (h : List.Forall₂ (Spans g) (g.children id) below) : Spans g id (id :: below.flatten)

/-- The node that is reached by so many steps to the parent. -/
def ancestor? (g : Graph σ) : Nat → NodeId → Option NodeId
  | 0, id => some id
  | n + 1, id => (g.parent? id).bind (g.ancestor? n)

/-- The children tell the parents, parents are younger, and the way down from the root meets
every node under it, each of them once. -/
structure Treelike (g : Graph σ) (root : NodeId) : Prop where
  parent : ∀ c p, g.parent? c = some p ↔ c ∈ g.children p
  rises : ∀ c p, g.parent? c = some p → c.index < p.index
  ends : ∀ c, ∃ n, g.ancestor? n c = none
  spans : ∃ ids, g.Spans root ids ∧ ids.Nodup ∧ ∀ id, id ∈ ids ↔ g.Under root id

section Forall₂

variable {α β : Type} {as : List α}

theorem exists_forall₂ {R : α → β → Prop} (h : ∀ a ∈ as, ∃ b, R a b) :
    ∃ bs, List.Forall₂ R as bs := by
  induction as with
  | nil => exact ⟨[], .nil⟩
  | cons a as ih =>
    obtain ⟨b, hb⟩ := h a List.mem_cons_self
    obtain ⟨bs, hbs⟩ := ih fun x hx => h x (List.mem_cons_of_mem a hx)
    exact ⟨b :: bs, .cons hb hbs⟩

theorem mem_flatten_of_forall₂ {R : α → List β → Prop} {P : α → Prop} {bs : List (List β)} {x : β}
    (h : List.Forall₂ R as bs) (hP : ∀ a ∈ as, ∀ b, R a b → (x ∈ b ↔ P a)) :
    x ∈ bs.flatten ↔ ∃ a ∈ as, P a := by
  induction h with
  | nil => simp
  | @cons a b as bs hab _ ih =>
    rw [List.flatten_cons, List.mem_append, List.exists_mem_cons_iff,
      hP a List.mem_cons_self b hab, ih fun a' ha' => hP a' (List.mem_cons_of_mem a ha')]

end Forall₂

namespace HoldsTogether

variable {p q c id id' : NodeId} {ids : List NodeId}

theorem nodup_children (h : g.HoldsTogether) (p : NodeId) : (g.children p).Nodup := by
  by_cases hp : p.index < g.size
  · exact (List.nodup_flatMap.1 h.once).1 p.index (List.mem_range.2 hp)
  · have hnil : g.children p = [] :=
      List.eq_nil_iff_forall_not_mem.2 fun c hc => hp (index_lt_of_mem_children hc)
    rw [hnil]
    exact List.nodup_nil

theorem parent_unique (h : g.HoldsTogether) (hp : c ∈ g.children p) (hq : c ∈ g.children q) :
    p = q := by
  have hnd := h.once
  rw [← map_snd_mentions] at hnd
  have he := List.inj_on_of_nodup_map hnd (mem_mentions.2 hp) (mem_mentions.2 hq) rfl
  exact (Prod.mk.inj he).1

/-- A node under another one is older, if it is not the same. -/
theorem index_le (h : g.HoldsTogether) (hu : g.Under p c) : c.index ≤ p.index := by
  induction hu with
  | refl => exact Nat.le_refl _
  | tail _ hc ih => exact Nat.le_trans (Nat.le_of_lt (h.lower _ _ hc)) ih

/-- Two nodes over a common one lie one under the other. -/
theorem under_or_under (h : g.HoldsTogether) (hp : g.Under p id) (hq : g.Under q id) :
    g.Under p q ∨ g.Under q p := by
  induction hp with
  | refl => exact .inr hq
  | tail hb hc ih =>
    cases hq with
    | refl => exact .inl (.tail hb hc)
    | tail hd hc' => exact ih (h.parent_unique hc' hc ▸ hd)

/-- What lies under one child of a node lies under no other. -/
theorem children_apart (h : g.HoldsTogether) {a b : NodeId} (ha : a ∈ g.children p)
    (hb : b ∈ g.children p) (hai : g.Under a id) (hbi : g.Under b id) : a = b := by
  -- one of the two would lie under the other, and its parent `p` with it
  have key : ∀ {a b : NodeId}, a ∈ g.children p → b ∈ g.children p → g.Under a b → a = b := by
    intro a b ha hb hab
    rcases Relation.ReflTransGen.cases_tail hab with he | ⟨d, had, hd⟩
    · exact he.symm
    · rw [h.parent_unique hd hb] at had
      exact absurd (h.index_le had) (Nat.not_le_of_lt (h.lower p a ha))
  rcases h.under_or_under hai hbi with hab | hba
  · exact key ha hb hab
  · exact (key hb ha hba).symm

theorem exists_spans (h : g.HoldsTogether) (id : NodeId) : ∃ ids, g.Spans id ids := by
  induction hn : id.index using Nat.strongRecOn generalizing id with
  | _ n ih =>
    subst hn
    obtain ⟨below, hb⟩ := exists_forall₂ (R := g.Spans) fun c hc =>
      ih c.index (h.lower id c hc) c rfl
    exact ⟨_, .node hb⟩

theorem mem_spans (h : g.HoldsTogether) (hs : g.Spans id ids) : id' ∈ ids ↔ g.Under id id' := by
  induction hn : id.index using Nat.strongRecOn generalizing id ids with
  | _ n ih =>
    subst hn
    cases hs with
    | node hb =>
      have hbelow := mem_flatten_of_forall₂ (x := id') (P := (g.Under · id')) hb
        fun c hc part hpart => ih c.index (h.lower id c hc) hpart rfl
      rw [List.mem_cons, hbelow, Under, Relation.ReflTransGen.cases_head_iff]
      simp only [eq_comm]

/-- The ways down from different children of a node meet different nodes. -/
theorem nodup_flatten (h : g.HoldsTogether) {cs : List NodeId} {below : List (List NodeId)}
    (hb : List.Forall₂ g.Spans cs below) (hsub : ∀ c ∈ cs, c ∈ g.children p) (hcs : cs.Nodup)
    (hparts : ∀ c ∈ cs, ∀ part, g.Spans c part → part.Nodup) : below.flatten.Nodup := by
  induction hb with
  | nil => exact List.nodup_nil
  | @cons c part cs below hpart hb ih =>
    obtain ⟨hc, hcs⟩ := List.nodup_cons.1 hcs
    have hrest := ih (fun c' hc' => hsub c' (List.mem_cons_of_mem c hc')) hcs
      fun c' hc' => hparts c' (List.mem_cons_of_mem c hc')
    refine List.nodup_append.2 ⟨hparts c List.mem_cons_self part hpart, hrest, ?_⟩
    rintro x hx y hy rfl
    obtain ⟨c', hc', hx'⟩ := (mem_flatten_of_forall₂ (P := (g.Under · x)) hb
      fun c' _ part' hpart' => h.mem_spans hpart').1 hy
    have he := h.children_apart (hsub c List.mem_cons_self) (hsub c' (List.mem_cons_of_mem c hc'))
      ((h.mem_spans hpart).1 hx) hx'
    exact hc (he ▸ hc')

theorem nodup_spans (h : g.HoldsTogether) (hs : g.Spans id ids) : ids.Nodup := by
  induction hn : id.index using Nat.strongRecOn generalizing id ids with
  | _ n ih =>
    subst hn
    cases hs with
    | node hb =>
      have hbelow := h.nodup_flatten hb (fun c hc => hc) (h.nodup_children id)
        fun c hc part hpart => ih c.index (h.lower id c hc) hpart rfl
      refine List.nodup_cons.2 ⟨fun hid => ?_, hbelow⟩
      obtain ⟨c, hc, hu⟩ := (mem_flatten_of_forall₂ (P := (g.Under · id)) hb
        fun c _ part hpart => h.mem_spans hpart).1 hid
      exact absurd (h.index_le hu) (Nat.not_le_of_lt (h.lower id c hc))

end HoldsTogether

omit [Node σ] in
theorem ancestor?_ends (hup : ∀ c p, g.parent? c = some p → c.index < p.index) (c : NodeId) :
    ∃ n, g.ancestor? n c = none := by
  induction hn : g.size - c.index using Nat.strongRecOn generalizing c with
  | _ n ih =>
    subst hn
    cases hp : g.parent? c with
    | none => exact ⟨1, by simp [ancestor?, hp]⟩
    | some p =>
      -- the parent is nearer to the end of the graph
      have hlt := hup c p hp
      have hc := index_lt_of_parent? hp
      obtain ⟨n, hn⟩ := ih (g.size - p.index) (by omega) p rfl
      exact ⟨n + 1, by simp [ancestor?, hp, hn]⟩

theorem Built.treelike (h : Built g) (hf : g.faults = []) (root : NodeId) : g.Treelike root := by
  have ht := h.faults_eq_nil_iff.1 hf
  have hparent : ∀ c p, g.parent? c = some p ↔ c ∈ g.children p := fun c p =>
    (h.judges.parent hf p c).trans mem_mentions
  have hup : ∀ c p, g.parent? c = some p → c.index < p.index := fun c p hp =>
    ht.lower p c ((hparent c p).1 hp)
  obtain ⟨ids, hs⟩ := ht.exists_spans root
  exact ⟨hparent, hup, ancestor?_ends hup, ids, hs, ht.nodup_spans hs, fun id => ht.mem_spans hs⟩

/-! ## What a host builds -/

/-- A call of whoever builds a graph. -/
inductive BuildCall (σ : Type) where
  | add (name : String) (node : σ)
  | attach (owner service : NodeId)

/-- The graph after a call, and the error if the call was refused. -/
def build (g : Graph σ) : BuildCall σ → Graph σ × Option GraphError
  | .add name node => ((g.add name node).1, none)
  | .attach owner service => match g.attach owner service with
    | .ok g' => (g', none)
    | .error e => (g, some e)

/-- The graph after the calls, whether they were refused or not. -/
def buildAll (calls : List (BuildCall σ)) : Graph σ := calls.foldl (fun g c => (g.build c).1) {}

theorem Built.build (h : Built g) (call : BuildCall σ) : Built (g.build call).1 := by
  cases call with
  | add name node => exact h.add name node
  | attach owner service =>
    simp only [Graph.build]
    cases ha : g.attach owner service with
    | ok g' => exact h.attach owner service ha
    | error e => exact h

theorem built_buildAll (calls : List (BuildCall σ)) : Built (buildAll calls) := by
  induction calls using List.reverseRecOn with
  | nil => exact .empty
  | append_singleton calls call ih =>
    rw [buildAll, List.foldl_append]
    exact ih.build call

/-- What attaching a service comes to: it is accepted if owner and service are there, the
service is one, and it has no owner yet; then it has its owner, and all others have theirs. A
refused service leaves the graph as it was. -/
structure Attaches (g : Graph σ) (owner service : NodeId) : Prop where
  accepted_iff : (g.build (.attach owner service)).2 = none ↔ g.contains owner ∧
    (∃ slot, g.slot? service = some slot ∧ Node.isService slot.node) ∧ g.owner? service = none
  accepted : (g.build (.attach owner service)).2 = none →
    ∀ s, (g.build (.attach owner service)).1.owner? s
      = if s = service then some owner else g.owner? s
  refused : (g.build (.attach owner service)).2 ≠ none → (g.build (.attach owner service)).1 = g

theorem attach_eq_ok_iff {owner service : NodeId} :
    (∃ g', g.attach owner service = .ok g') ↔ g.contains owner ∧
      (∃ slot, g.slot? service = some slot ∧ Node.isService slot.node) ∧
        g.owner? service = none := by
  constructor
  · rintro ⟨g', ha⟩
    obtain ⟨hc, hs, ho, -⟩ := attach_ok ha
    exact ⟨hc, hs, ho⟩
  · rintro ⟨hc, ⟨slot, hs, hi⟩, ho⟩
    have hnone : slot.owner = none := by simpa [owner?, hs] using ho
    simp [attach, hc, hs, hi, hnone]

theorem attaches (g : Graph σ) (owner service : NodeId) : g.Attaches owner service := by
  cases ha : g.attach owner service with
  | ok g' =>
    have hbuild : g.build (.attach owner service) = (g', none) := by simp only [build, ha]
    obtain ⟨hc, ⟨slot, hs, hi⟩, ho, he⟩ := attach_ok ha
    refine ⟨?_, fun _ s => ?_, fun hne => ?_⟩
    · rw [hbuild]
      exact ⟨fun _ => ⟨hc, ⟨slot, hs, hi⟩, ho⟩, fun _ => rfl⟩
    · rw [hbuild, he, owner?_attach hs]
    · exact absurd (congrArg Prod.snd hbuild) hne
  | error e =>
    have hbuild : g.build (.attach owner service) = (g, some e) := by simp only [build, ha]
    refine ⟨?_, fun hnone => ?_, fun _ => congrArg Prod.fst hbuild⟩
    · rw [hbuild, ← attach_eq_ok_iff, ha]
      exact ⟨nofun, nofun⟩
    · rw [hbuild] at hnone
      cases hnone

theorem Wired.owner?_eq_some_iff (h : Wired g) (o s : NodeId) : g.owner? s = some o ↔
    (g.servicesOf o).count s = 1 ∧ ∀ o', o' ≠ o → s ∉ g.servicesOf o' := by
  constructor
  · intro ho
    refine ⟨List.count_eq_one_of_mem (h.nodup o) ((h.owner o s).2 ho), fun o' hne hm => ?_⟩
    rw [(h.owner o' s).1 hm] at ho
    exact hne (Option.some.inj ho)
  · exact fun ⟨hc, _⟩ => (h.owner o s).1 (List.one_le_count_iff.1 (Nat.le_of_eq hc.symm))

/-- Validation accepts the graphs that hold together, and no others; of any other it tells what
is wrong first. What it accepts is a tree under the root. Services and owners agree, and a
service that is refused changes nothing. -/
theorem validate_buildAll (calls : List (BuildCall σ)) (root : NodeId) :
    let g := buildAll calls
    (g.validate root = .ok () ↔ g.contains root ∧ g.HoldsTogether) ∧
    (∀ e, g.validate root = .error e ↔ ¬g.contains root ∧ e = .unknownRoot root ∨
      g.contains root ∧ Mention.FirstViolation g.mentions e) ∧
    (g.validate root = .ok () → g.Treelike root) ∧
    (∀ o s, g.owner? s = some o ↔
      (g.servicesOf o).count s = 1 ∧ ∀ o', o' ≠ o → s ∉ g.servicesOf o') ∧
    ∀ owner service, g.Attaches owner service := by
  intro g
  have hb : Built g := built_buildAll calls
  refine ⟨?_, fun e => ?_, fun hv => ?_, hb.wired.owner?_eq_some_iff, attaches g⟩
  · rw [validate_eq_ok_iff, hb.faults_eq_nil_iff]
  · rw [validate_eq_error_iff, hb.head?_faults_iff]
  · exact hb.treelike (validate_eq_ok_iff.1 hv).2 root

end Graph

end BehaviorTree
