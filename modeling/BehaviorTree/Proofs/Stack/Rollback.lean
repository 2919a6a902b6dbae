/-
What rolling a stack back does, to the last detail.

The nodes above the target are rolled back from the top down, the nodes from the target on
keep all that they have, and the stack is as good as new but for them. A stack that was
rolled back has nothing left above the target, so doing it again does nothing.
-/
import BehaviorTree.Proofs.Stack.Reachable
import BehaviorTree.Proofs.World.Rollback

namespace BehaviorTree.Stack

variable {σ : Type} {s : Stack} {w w' : World σ} {stopAt : Option NodeId}

/-- The nodes above the target, the top first; without a target, all of them. -/
def above (s : Stack) (stopAt : Option NodeId) : List NodeId :=
  s.nodes.takeWhile fun n => stopAt ≠ some n

/-- The nodes from the target on; without a target, none. -/
def remaining (s : Stack) (stopAt : Option NodeId) : List NodeId :=
  s.nodes.dropWhile fun n => stopAt ≠ some n

theorem above_append_remaining (s : Stack) (stopAt : Option NodeId) :
    s.above stopAt ++ s.remaining stopAt = s.nodes :=
  List.takeWhile_append_dropWhile

/-- What remains begins with the target. -/
theorem head?_remaining (h : ∀ t, stopAt = some t → t ∈ s.nodes) :
    (s.remaining stopAt).head? = stopAt := by
  unfold remaining
  generalize s.nodes = ns at h
  induction ns with
  | nil =>
    cases stopAt with
    | none => rfl
    | some t => cases h t rfl
  | cons top rest ih =>
    by_cases he : stopAt = some top
    · simp [he]
    · simpa [he] using ih fun t ht =>
        (List.mem_cons.1 (h t ht)).resolve_left fun hr => he (hr ▸ ht)

/-- The stack was rolled back as far as the target. -/
structure BrokenTo [Node σ] (s : Stack) (w : World σ) (stopAt : Option NodeId)
    (p : Pass σ Stack) : Prop where
  fault : p.fault = none
  /-- It is ready, and keeps what is not above the target. -/
  after : p.after =
    { s with
      nodes := s.remaining stopAt
      state := .ready
      result := none
      current := none
      last := none
      paused := false
      parkedAt := none }
  top : p.after.top? = stopAt
  world : World.Unwound (s.above stopAt) w p.world

variable [Node σ]

theorem unwind_eq (label : StackLabel) (stopAt : Option NodeId) {ns : List NodeId}
    (hd : ns.Nodup) (hk : ∀ n ∈ ns, w.graph.contains n) :
    ∃ w', unwind label stopAt ns w = ⟨ns.dropWhile fun n => stopAt ≠ some n, w', none⟩ ∧
      World.Unwound (ns.takeWhile fun n => stopAt ≠ some n) w w' := by
  induction ns generalizing w with
  | nil => exact ⟨w, rfl, .refl w⟩
  | cons top rest ih =>
    by_cases ht : stopAt = some top
    · exact ⟨w, by simp [unwind, ht], by simpa [ht] using .refl w⟩
    · obtain ⟨htop, hrest⟩ := List.nodup_cons.1 hd
      obtain ⟨w', hw⟩ := World.exists_interrupt (hk top List.mem_cons_self)
      have hg : w.graph.Grown (w'.left label top rest.length).graph :=
        (World.interrupt_keeps hw).graph
      obtain ⟨w'', hu, hrolled⟩ := ih (w := w'.left label top rest.length) hrest fun n hn => by
        rw [hg.contains]
        exact hk n (List.mem_cons_of_mem _ hn)
      refine ⟨w'', by simp [unwind, ht, hw, hu], ?_⟩
      have hgone : World.Unwound [top] w (w'.left label top rest.length) :=
        (World.interrupt_unwound hw).note (World.addressed_trace ..) rfl rfl rfl rfl
      have hmore := hgone.trans hrolled fun n hn hm => htop (by
        rw [← List.mem_singleton.1 hn]
        exact (List.takeWhile_sublist _).subset hm)
      simpa [List.takeWhile_cons, ht] using hmore

/-- Nothing is done for a target that is not on the stack. -/
theorem breakTo_missing (s : Stack) (w : World σ) {t : NodeId} (h : t ∉ s.nodes) :
    s.breakTo w (some t) = ⟨s, w, some (.breakTargetNotOnStack s.label t)⟩ := by
  have hf : (some t).filter (!s.contains ·) = some t := by simp [contains, h]
  rw [breakTo, hf]

/-- For every other target, and for none, the stack is rolled back. -/
theorem Sound.brokenTo (h : Sound s w) (ht : ∀ t, stopAt = some t → t ∈ s.nodes) :
    BrokenTo s w stopAt (s.breakTo w stopAt) := by
  have hf : stopAt.filter (!s.contains ·) = none := by
    cases stopAt with
    | none => rfl
    | some t => simp [contains, ht t rfl]
  obtain ⟨w', hu, hrolled⟩ := unwind_eq s.label stopAt h.nodup h.known
  rw [Stack.breakTo, hf]
  simp only [hu]
  exact ⟨rfl, rfl, head?_remaining ht, hrolled.note (World.addressed_trace ..) rfl rfl rfl rfl⟩

namespace BrokenTo

variable {p : Pass σ Stack}

/-- Every token that was handed out to a node above the target is spent. -/
theorem spent (h : BrokenTo s w stopAt p) {u : World σ} {t : Progress} (hi : World.Issued t u)
    (hu : u.Since w) (hn : t.node ∈ s.above stopAt) : p.world.Spent t := by
  obtain ⟨new, haged⟩ := hu.aged
  obtain ⟨a, ha, hle, -⟩ := haged.activation t.node t.activation
    (World.progress?_eq_some_iff.1 hi.progress?)
  exact ⟨a + 1, by rw [h.world.activation t.node hn, ha]; rfl, by omega⟩

/-- Nothing is above the target any more. -/
theorem above_after (h : BrokenTo s w stopAt p) : p.after.above stopAt = [] := by
  have htop := h.top
  unfold top? at htop
  unfold above
  cases hn : p.after.nodes with
  | nil => rfl
  | cons top rest =>
    rw [hn] at htop
    simp [← htop]

/-- To do the same again changes nothing, and addresses nobody. -/
theorem again (h : BrokenTo s w stopAt p) (hp : Sound p.after p.world) :
    (p.after.breakTo p.world stopAt).fault = none ∧
      (p.after.breakTo p.world stopAt).after = p.after ∧
      World.Unwound [] p.world (p.after.breakTo p.world stopAt).world := by
  have hb : BrokenTo p.after p.world stopAt (p.after.breakTo p.world stopAt) :=
    hp.brokenTo fun t ht => List.mem_of_head? (h.top.trans ht)
  have hr : p.after.remaining stopAt = p.after.nodes := by
    simpa [h.above_after] using above_append_remaining p.after stopAt
  refine ⟨hb.fault, ?_, h.above_after ▸ hb.world⟩
  rw [hb.after, hr, h.after]

end BrokenTo

end BehaviorTree.Stack
