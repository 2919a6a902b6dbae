/-
The graphs that a host can build.

A graph is filled node by node, and services are attached in between. Whatever is added,
services and owners agree about each other; and once nothing was found that does not hold
together, every child has one parent, which was added after it.
-/
import BehaviorTree.Proofs.World.Frame

namespace BehaviorTree.Graph

variable {σ : Type} [Node σ] {g g' : Graph σ}

/-- Made by adding nodes and attaching services, in any order. -/
inductive Built : Graph σ → Prop
  | empty : Built {}
  | add {g : Graph σ} (h : Built g) (name : String) (node : σ) : Built (g.add name node).1
  | attach {g g' : Graph σ} (h : Built g) (owner service : NodeId)
      (ha : g.attach owner service = .ok g') : Built g'

/-- How the places of a graph refer to each other. -/
structure Wired (g : Graph σ) : Prop where
  parent : g.faults = [] → ∀ p c, c ∈ g.children p → g.parent? c = some p
  lower : g.faults = [] → ∀ p c, c ∈ g.children p → c.index < p.index
  owner : ∀ o s, s ∈ g.servicesOf o ↔ g.owner? s = some o
  nodup : ∀ o, (g.servicesOf o).Nodup
  service : ∀ o s, s ∈ g.servicesOf o →
    ∃ slot, g.slot? s = some slot ∧ Node.isService slot.node

/-! ## What is looked up -/

theorem children_eq (g : Graph σ) (id : NodeId) :
    g.children id = ((g.slot? id).map fun s => Node.children s.node).getD [] := by
  unfold children
  cases g.slot? id <;> rfl

omit [Node σ] in
theorem servicesOf_eq (g : Graph σ) (id : NodeId) :
    g.servicesOf id = ((g.slot? id).map (·.services)).getD [] := by
  unfold servicesOf
  cases g.slot? id <;> rfl

omit [Node σ] in
theorem slot?_modify (g : Graph σ) (id other : NodeId) (f : Slot σ → Slot σ) :
    (g.modify id f).slot? other = if other = id then (g.slot? other).map f else g.slot? other := by
  split
  · next h => rw [h, slot?_modify_self]
  · next h => exact slot?_modify_of_ne g h f

omit [Node σ] in
/-- What a change of a slot leaves alone is found as before. -/
theorem map_slot?_modify {α : Type} (g : Graph σ) (id other : NodeId) {f : Slot σ → Slot σ}
    {h : Slot σ → α} (hf : ∀ s, h (f s) = h s) :
    ((g.modify id f).slot? other).map h = (g.slot? other).map h := by
  rw [slot?_modify]
  split
  · simp [Function.comp_def, hf]
  · rfl

theorem children_modify (g : Graph σ) (id p : NodeId) {f : Slot σ → Slot σ}
    (hf : ∀ s, (f s).node = s.node) : (g.modify id f).children p = g.children p := by
  rw [children_eq, children_eq, map_slot?_modify g id p fun s => by rw [hf]]

omit [Node σ] in
theorem parent?_eq (g : Graph σ) (id : NodeId) :
    g.parent? id = ((g.slot? id).map (·.parent)).join := by
  unfold parent?
  cases g.slot? id <;> rfl

omit [Node σ] in
theorem owner?_eq (g : Graph σ) (id : NodeId) :
    g.owner? id = ((g.slot? id).map (·.owner)).join := by
  unfold owner?
  cases g.slot? id <;> rfl

omit [Node σ] in
theorem servicesOf_modify (g : Graph σ) (id o : NodeId) {f : Slot σ → Slot σ}
    (hf : ∀ s, (f s).services = s.services) : (g.modify id f).servicesOf o = g.servicesOf o := by
  rw [servicesOf_eq, servicesOf_eq, map_slot?_modify g id o hf]

omit [Node σ] in
theorem owner?_modify (g : Graph σ) (id x : NodeId) {f : Slot σ → Slot σ}
    (hf : ∀ s, (f s).owner = s.owner) : (g.modify id f).owner? x = g.owner? x := by
  rw [owner?_eq, owner?_eq, map_slot?_modify g id x hf]

omit [Node σ] in
theorem index_lt_of_slot? {id : NodeId} {s : Slot σ} (h : g.slot? id = some s) :
    id.index < g.size := by
  have hc := isSome_slot? g id
  simpa [h, contains] using hc.symm

omit [Node σ] in
theorem index_lt_of_parent? {c p : NodeId} (h : g.parent? c = some p) : c.index < g.size := by
  obtain ⟨s, hs, -⟩ := Option.bind_eq_some_iff.1 h
  exact index_lt_of_slot? hs

/-! ## Adding a node -/

omit [Node σ] in
/-- A claim is for a child that has no parent yet, or it is a fault. -/
theorem claim_cases (parent : NodeId) (g : Graph σ) (child : NodeId) :
    (∃ e, claim parent g child = { g with faults := g.faults ++ [e] }) ∨
      g.parent? child = none ∧ child.index < g.size ∧
        claim parent g child = g.modify child fun s => { s with parent := some parent } := by
  unfold claim
  split
  · exact .inl ⟨_, rfl⟩
  next slot hs =>
  split
  · exact .inl ⟨_, rfl⟩
  · next hp => exact .inr ⟨by simp [parent?, hs, hp], index_lt_of_slot? hs, rfl⟩

/-- What claiming children for a node does: nothing but to give parents to nodes that had
none, and to note faults. -/
structure Claims (id : NodeId) (cs : List NodeId) (g g' : Graph σ) : Prop where
  size : g'.size = g.size
  children : ∀ p, g'.children p = g.children p
  owner : ∀ s, g'.owner? s = g.owner? s
  servicesOf : ∀ o, g'.servicesOf o = g.servicesOf o
  isService : ∀ s, ((g'.slot? s).map fun s => Node.isService s.node)
    = (g.slot? s).map fun s => Node.isService s.node
  faults : g'.faults = [] → g.faults = []
  parent : ∀ c p, g.parent? c = some p → g'.parent? c = some p
  claimed : g'.faults = [] → ∀ c ∈ cs, g'.parent? c = some id

theorem claims_claim (id : NodeId) (g : Graph σ) (c : NodeId) :
    Claims id [c] g (claim id g c) := by
  rcases claim_cases id g c with ⟨e, he⟩ | ⟨hp, hc, he⟩
  · rw [he]
    have hne : g.faults ++ [e] ≠ [] := by simp
    exact ⟨rfl, fun _ => rfl, fun _ => rfl, fun _ => rfl, fun _ => rfl,
      fun h => absurd h hne, fun _ _ h => h, fun h => absurd h hne⟩
  · rw [he]
    have hself : (g.modify c fun s => { s with parent := some id }).parent? c = some id := by
      have hs : (g.slot? c).isSome := by rw [isSome_slot?]; simpa [contains] using hc
      obtain ⟨slot, hs⟩ := Option.isSome_iff_exists.1 hs
      simp [parent?, slot?_modify_self, hs]
    refine ⟨by simp, fun p => children_modify g c p fun _ => rfl,
      fun s => owner?_modify g c s fun _ => rfl, fun o => servicesOf_modify g c o fun _ => rfl,
      fun s => map_slot?_modify g c s fun _ => rfl, fun h => h, fun x p hx => ?_, fun _ x hx => ?_⟩
    · have hne : x ≠ c := by
        rintro rfl
        rw [hp] at hx
        cases hx
      rwa [parent?, slot?_modify_of_ne g hne]
    · rw [List.mem_singleton.1 hx]
      exact hself

theorem Claims.trans {id : NodeId} {cs cs' : List NodeId} {g₁ g₂ g₃ : Graph σ}
    (h : Claims id cs g₁ g₂) (h' : Claims id cs' g₂ g₃) : Claims id (cs ++ cs') g₁ g₃ := by
  refine ⟨h'.size.trans h.size, fun p => (h'.children p).trans (h.children p),
    fun s => (h'.owner s).trans (h.owner s), fun o => (h'.servicesOf o).trans (h.servicesOf o),
    fun s => (h'.isService s).trans (h.isService s), fun hf => h.faults (h'.faults hf),
    fun c p hc => h'.parent c p (h.parent c p hc), fun hf c hc => ?_⟩
  rcases List.mem_append.1 hc with hc | hc
  · exact h'.parent c id (h.claimed (h'.faults hf) c hc)
  · exact h'.claimed hf c hc

theorem claims_foldl (id : NodeId) (cs : List NodeId) (g : Graph σ) :
    Claims id cs g (cs.foldl (claim id) g) := by
  induction cs generalizing g with
  | nil =>
    exact ⟨rfl, fun _ => rfl, fun _ => rfl, fun _ => rfl, fun _ => rfl, fun h => h,
      fun _ _ h => h, by simp⟩
  | cons c cs ih => exact (claims_claim id g c).trans (ih (claim id g c))

omit [Node σ] in
theorem slot?_push (g : Graph σ) (s : Slot σ) (id : NodeId) :
    ({ g with slots := g.slots.push s } : Graph σ).slot? id
      = if id.index = g.size then some s else g.slot? id := by
  unfold slot? size
  rw [Array.getElem?_push]

/-! ## The wiring of a built graph -/

theorem wired_empty : Wired ({} : Graph σ) := by
  have hs : ∀ id, ({} : Graph σ).slot? id = none := fun _ => rfl
  refine ⟨fun _ p c hc => ?_, fun _ p c hc => ?_, fun o s => ?_, fun o => ?_, fun o s hm => ?_⟩
  · simp [children_eq, hs] at hc
  · simp [children_eq, hs] at hc
  · simp [servicesOf_eq, owner?_eq, hs]
  · simp [servicesOf_eq, hs]
  · simp [servicesOf_eq, hs] at hm

/-- `g'` is `g` with a node at its end, which has no service yet and is attached to nothing;
all else is as claiming its children left it. -/
structure Pushed (g g₁ g' : Graph σ) (name : String) (node : σ) : Prop where
  claims : Claims ⟨g.size⟩ (Node.children node) g g₁
  faults : g'.faults = g₁.faults
  slot? : ∀ id, g'.slot? id = if id.index = g.size then some { name, node } else g₁.slot? id

namespace Pushed

variable {g₁ : Graph σ} {name : String} {node : σ}

theorem slot?_old (h : Pushed g g₁ g' name node) {id : NodeId} (hid : id.index < g.size) :
    g'.slot? id = g₁.slot? id := by
  rw [h.slot?, if_neg (Nat.ne_of_lt hid)]

theorem slot?_new (h : Pushed g g₁ g' name node) {id : NodeId} (hid : ¬id.index < g.size) :
    g₁.slot? id = none := by
  rw [← Option.isNone_iff_eq_none, ← Option.not_isSome, isSome_slot?]
  simpa [contains, h.claims.size] using hid

/-- Every child has its parent, and was there before it. -/
theorem parent? (h : Pushed g g₁ g' name node) (hg : Wired g) (hf : g₁.faults = [])
    {p c : NodeId} (hm : c ∈ g'.children p) : g₁.parent? c = some p ∧ c.index < p.index := by
  have hc := h.claims
  by_cases hp : p.index = g.size
  · have he : p = ⟨g.size⟩ := NodeId.ext hp
    rw [children_eq, h.slot?, if_pos hp] at hm
    have hcl := hc.claimed hf c hm
    refine ⟨he ▸ hcl, ?_⟩
    rw [hp, ← hc.size]
    exact index_lt_of_parent? hcl
  · rw [children_eq, h.slot?, if_neg hp, ← children_eq, hc.children] at hm
    exact ⟨hc.parent c p (hg.parent (hc.faults hf) p c hm), hg.lower (hc.faults hf) p c hm⟩

theorem servicesOf (h : Pushed g g₁ g' name node) (o : NodeId) :
    g'.servicesOf o = g.servicesOf o := by
  by_cases ho : o.index < g.size
  · rw [servicesOf_eq, h.slot?_old ho, ← servicesOf_eq, h.claims.servicesOf]
  · rw [← h.claims.servicesOf, servicesOf_eq, servicesOf_eq, h.slot?, h.slot?_new ho]
    split <;> rfl

theorem owner? (h : Pushed g g₁ g' name node) (s : NodeId) : g'.owner? s = g.owner? s := by
  by_cases hs : s.index < g.size
  · rw [owner?_eq, h.slot?_old hs, ← owner?_eq, h.claims.owner]
  · rw [← h.claims.owner, owner?_eq, owner?_eq, h.slot?, h.slot?_new hs]
    split <;> rfl

theorem wired (h : Pushed g g₁ g' name node) (hg : Wired g) : Wired g' where
  parent hf p c hm := by
    have hp := (h.parent? hg (h.faults ▸ hf) hm).1
    have hi := index_lt_of_parent? hp
    rw [h.claims.size] at hi
    rwa [Graph.parent?, h.slot?_old hi]
  lower hf p c hm := (h.parent? hg (h.faults ▸ hf) hm).2
  owner o s := by
    rw [h.servicesOf, h.owner?]
    exact hg.owner o s
  nodup o := by
    rw [h.servicesOf]
    exact hg.nodup o
  service o s hm := by
    rw [h.servicesOf] at hm
    obtain ⟨slot, hs, hi⟩ := hg.service o s hm
    have hk := h.claims.isService s
    rw [hs] at hk
    rw [h.slot?_old (index_lt_of_slot? hs)]
    obtain ⟨slot', hs', hi'⟩ := Option.map_eq_some_iff.1 hk
    exact ⟨slot', hs', hi'.trans hi⟩

end Pushed

theorem Wired.add (h : Wired g) (name : String) (node : σ) : Wired (g.add name node).1 := by
  have hc := claims_foldl ⟨g.size⟩ (Node.children node) g
  have hp : Pushed g _ (g.add name node).1 name node := ⟨hc, rfl, fun id => by
    have hp := slot?_push ((Node.children node).foldl (claim ⟨g.size⟩) g) { name, node } id
    rwa [hc.size] at hp⟩
  exact hp.wired h

/-- A service's place once it is attached. -/
def ownedBy (owner : NodeId) (s : Slot σ) : Slot σ := { s with owner := some owner }

/-- An owner's place once a service is attached to it. -/
def serving (service : NodeId) (s : Slot σ) : Slot σ :=
  { s with services := s.services ++ [service] }

/-- What it takes to attach a service. -/
theorem attach_ok {owner service : NodeId} (h : g.attach owner service = .ok g') :
    g.contains owner ∧ (∃ slot, g.slot? service = some slot ∧ Node.isService slot.node) ∧
      g.owner? service = none ∧
      g' = (g.modify service (ownedBy owner)).modify owner (serving service) := by
  unfold attach at h
  split at h
  · cases h
  next hc =>
  split at h
  · cases h
  next slot hs =>
  split at h
  · cases h
  next hi =>
  split at h
  · cases h
  next ho =>
  cases h
  refine ⟨by simpa using hc, ⟨slot, hs, by simpa using hi⟩, by simp [owner?, hs, ho], rfl⟩

section Attach

variable {owner service : NodeId}

omit [Node σ] in
/-- What does not look at owners and services is as before. -/
theorem map_slot?_attach {α : Type} (id : NodeId) {h : Slot σ → α}
    (ho : ∀ s, h (ownedBy owner s) = h s) (hs : ∀ s, h (serving service s) = h s) :
    (((g.modify service (ownedBy owner)).modify owner (serving service)).slot? id).map h
      = (g.slot? id).map h := by
  rw [map_slot?_modify _ owner id hs, map_slot?_modify g service id ho]

theorem children_attach (p : NodeId) :
    ((g.modify service (ownedBy owner)).modify owner (serving service)).children p
      = g.children p := by
  rw [children_eq, children_eq, map_slot?_attach p (fun _ => by rfl) (fun _ => by rfl)]

omit [Node σ] in
theorem parent?_attach (c : NodeId) :
    ((g.modify service (ownedBy owner)).modify owner (serving service)).parent? c
      = g.parent? c := by
  rw [parent?_eq, parent?_eq, map_slot?_attach c (fun _ => by rfl) (fun _ => by rfl)]

omit [Node σ] in
theorem owner?_attach {slot : Slot σ} (hs : g.slot? service = some slot) (x : NodeId) :
    ((g.modify service (ownedBy owner)).modify owner (serving service)).owner? x
      = if x = service then some owner else g.owner? x := by
  rw [owner?_modify (g.modify service (ownedBy owner)) owner x (f := serving service) fun _ => rfl]
  split
  · next hx => simp [hx, owner?, slot?_modify_self, hs, ownedBy]
  · next hx => rw [owner?, slot?_modify_of_ne g hx, ← owner?]

omit [Node σ] in
theorem servicesOf_attach (hc : g.contains owner) (o : NodeId) :
    ((g.modify service (ownedBy owner)).modify owner (serving service)).servicesOf o
      = if o = owner then g.servicesOf o ++ [service] else g.servicesOf o := by
  have h₁ : (g.modify service (ownedBy owner)).servicesOf o = g.servicesOf o :=
    servicesOf_modify g service o fun _ => rfl
  rw [← h₁, servicesOf_eq, servicesOf_eq, slot?_modify]
  split
  · next he =>
    have hsome : ((g.modify service (ownedBy owner)).slot? o).isSome := by
      rw [isSome_slot?, contains_modify, he]
      exact hc
    obtain ⟨t, ht⟩ := Option.isSome_iff_exists.1 hsome
    simp [ht, serving]
  · rfl

theorem Wired.attach (h : Wired g) (ha : g.attach owner service = .ok g') : Wired g' := by
  obtain ⟨hc, ⟨slot, hs, hi⟩, ho, rfl⟩ := attach_ok ha
  have hnot : ∀ o, service ∉ g.servicesOf o := fun o hm => by
    have hsome := (h.owner o service).1 hm
    rw [ho] at hsome
    cases hsome
  refine ⟨fun hf p c hm => ?_, fun hf p c hm => ?_, fun o s => ?_, fun o => ?_, fun o s hm => ?_⟩
  · rw [children_attach] at hm
    rw [parent?_attach]
    exact h.parent hf p c hm
  · rw [children_attach] at hm
    exact h.lower hf p c hm
  · rw [servicesOf_attach hc, owner?_attach hs]
    by_cases hso : s = service
    · subst hso
      by_cases hoo : o = owner
      · simp [hoo]
      · simp [hoo, hnot o, Ne.symm hoo]
    · by_cases hoo : o = owner
      · simp [hoo, hso, h.owner]
      · simp [hoo, hso, h.owner]
  · rw [servicesOf_attach hc]
    split
    · refine List.nodup_append.2 ⟨h.nodup o, by simp, fun x hx y hy => ?_⟩
      rw [List.mem_singleton.1 hy]
      rintro rfl
      exact hnot o hx
    · exact h.nodup o
  · have hex : ∃ slot, g.slot? s = some slot ∧ Node.isService slot.node := by
      rw [servicesOf_attach hc] at hm
      split at hm
      · rcases List.mem_append.1 hm with hm | hm
        · exact h.service o s hm
        · rw [List.mem_singleton.1 hm]
          exact ⟨slot, hs, hi⟩
      · exact h.service o s hm
    obtain ⟨slot, hs, hi⟩ := hex
    have hk : (((g.modify service (ownedBy owner)).modify owner (serving service)).slot? s).map
        (fun s => Node.isService s.node) = (g.slot? s).map fun s => Node.isService s.node :=
      map_slot?_attach s (fun _ => rfl) (fun _ => rfl)
    rw [hs] at hk
    obtain ⟨slot', hs', hi'⟩ := Option.map_eq_some_iff.1 hk
    exact ⟨slot', hs', hi'.trans hi⟩

end Attach

theorem Built.wired (h : Built g) : Wired g := by
  induction h with
  | empty => exact wired_empty
  | add _ name node ih => exact ih.add name node
  | attach _ owner service ha ih => exact ih.attach ha

/-! ## Before anything runs -/

/-- What only a run changes: whether the node is bound, its activation and its observers. -/
def progress (s : Slot σ) : Bool × Nat × List Observer := (s.bound, s.activation, s.observers)

omit [Node σ] in
theorem progress_claim (parent : NodeId) (g : Graph σ) (child id : NodeId) :
    ((claim parent g child).slot? id).map progress = (g.slot? id).map progress := by
  rcases claim_cases parent g child with ⟨e, he⟩ | ⟨-, -, he⟩
  · rw [he]
    rfl
  · rw [he]
    exact map_slot?_modify g child id fun _ => rfl

omit [Node σ] in
theorem progress_foldl (parent : NodeId) (cs : List NodeId) (g : Graph σ) (id : NodeId) :
    ((cs.foldl (claim parent) g).slot? id).map progress = (g.slot? id).map progress := by
  induction cs generalizing g with
  | nil => rfl
  | cons c cs ih => exact (ih (claim parent g c)).trans (progress_claim parent g c id)

/-- In a graph that was just built every node is as it was added. -/
theorem Built.progress_eq (h : Built g) (id : NodeId) :
    ∀ x ∈ (g.slot? id).map progress, x = (false, 0, []) := by
  induction h with
  | empty => exact fun _ h => by cases h
  | @add g _ name node ih =>
    have hp := slot?_push ((Node.children node).foldl (claim ⟨g.size⟩) g) { name, node } id
    unfold Graph.add
    simp only [hp]
    split
    · simp [progress]
    · rw [progress_foldl]
      exact ih
  | @attach g _ _ owner service ha ih =>
    obtain ⟨-, -, -, rfl⟩ := attach_ok ha
    rw [map_slot?_attach id (fun _ => by rfl) (fun _ => by rfl)]
    exact ih

/-- No node of a graph that was just built is bound. -/
theorem Built.unbound (h : Built g) (id : NodeId) : (g.slot? id).map (·.bound) ≠ some true := by
  have hp := h.progress_eq id
  cases hs : g.slot? id <;> simp_all [progress]

/-- No node of a graph that was just built has observers. -/
theorem Built.observers_eq (h : Built g) {id : NodeId} {s : Slot σ} (hs : g.slot? id = some s) :
    s.observers = [] := by
  have hp := h.progress_eq id
  simp_all [progress]

end BehaviorTree.Graph
