/-
A service is told in turn that it is registered and that it no longer is.

A service hears of its registration only if it is a service at that moment, and its own methods
may make another node of it. Then what it was told may fall behind what is registered. But a node
that no other calls comes only onto its own stack, and as the head of it, once it was asked and was
ready; what is no service is not asked. So a node that is no service and on no stack is never
called again (`Inert`), and until it comes to that the service was told what is so.
-/
import BehaviorTree.Proofs.Tree.Registration
import BehaviorTree.Proofs.Tree.Rounds
import BehaviorTree.Proofs.World.Rollback

namespace BehaviorTree

variable {σ : Type} [Node σ] {g : Graph σ} {root s : NodeId}

/-! ## Turns -/

/-- `true` and `false` in turn, beginning with `true`. -/
def Alternating (calls : List Bool) : Prop := ∀ i b, calls[i]? = some b → b = (i % 2 == 0)

theorem Alternating.append {calls : List Bool} {b : Bool} (h : Alternating calls)
    (hb : b = (calls.length % 2 == 0)) : Alternating (calls ++ [b]) := by
  intro i c hc
  rw [List.getElem?_append] at hc
  split at hc
  · exact h i c hc
  · next hi =>
    cases hk : i - calls.length with
    | zero =>
      have he : i = calls.length := by omega
      rw [hk] at hc
      cases hc
      rw [he]
      exact hb
    | succ k =>
      rw [hk] at hc
      cases hc

/-! ## Nodes that no other calls -/

/-- The node is not the root, and no node calls it. -/
structure Graph.Uncalled (g : Graph σ) (root s : NodeId) : Prop where
  callsChildren : g.CallsChildren
  not_root : s ≠ root
  no_child : ∀ p, s ∉ g.children p

/-- Such a node stays off every stack that does not begin with it, and nothing is done to it. -/
theorem Stack.Act.spares {label : StackLabel} {heads : NodeId → Prop}
    {x y : List NodeId × World σ} (h : Act label heads x y) (hs : g.Uncalled root s)
    (hg : g.Grown x.2.graph) (hheads : ¬heads s) (hoff : s ∉ x.1) :
    s ∉ y.1 ∧ y.2.graph.slot? s = x.2.graph.slot? s := by
  have hne : ∀ {top : NodeId} {rest : List NodeId}, s ∉ top :: rest → s ≠ top :=
    fun hoff he => hoff (he ▸ List.mem_cons_self)
  have hturned : ∀ {w w' : World σ} {top : NodeId} {d : Dispatch}, w.Turned top w' d →
      World.Local top w w' :=
    fun ht => ht.elim .execute fun ⟨_, ht⟩ => .receive ht
  cases h with
  | note | finish => exact ⟨hoff, rfl⟩
  | turn ht => exact ⟨hoff, (hturned ht).slot? s (hne hoff)⟩
  | hook phase => exact ⟨hoff, (World.Local.hook ..).slot? s (hne hoff)⟩
  | ask ha => exact ⟨hoff, (World.Local.ready ..).slot? s fun he => hheads (he ▸ ha)⟩
  | head ha _ =>
    refine ⟨fun hm => hheads ?_, rfl⟩
    rwa [List.mem_singleton.1 hm]
  | call ht _ _ =>
    refine ⟨fun hm => ?_, (hturned ht).slot? s (hne hoff)⟩
    rcases List.mem_cons.1 hm with rfl | hm
    · exact hs.no_child _ (mem_children_of_turned hs.callsChildren hg ht)
    · exact hoff hm
  | leave hw =>
    exact ⟨fun hm => hoff (List.mem_cons_of_mem _ hm), (World.Local.stop hw).slot? s (hne hoff)⟩
  | rollBack hw =>
    exact ⟨fun hm => hoff (List.mem_cons_of_mem _ hm),
      (World.Local.interrupt hw).slot? s (hne hoff)⟩

theorem Stack.Acts.spares {label : StackLabel} {heads : NodeId → Prop}
    {x y : List NodeId × World σ} (h : Acts label heads x y) (hs : g.Uncalled root s)
    (hg : g.Grown x.2.graph) (hheads : ¬heads s) (hoff : s ∉ x.1) :
    s ∉ y.1 ∧ y.2.graph.slot? s = x.2.graph.slot? s := by
  induction h with
  | refl => exact ⟨hoff, rfl⟩
  | tail h ha ih =>
    obtain ⟨hoff', hslot⟩ := ha.spares hs (hg.trans (Acts.frame h).graph) hheads ih.1
    exact ⟨hoff', hslot.trans ih.2⟩

/-- So does its own service as long as it is no service. -/
theorem Service.Turn.spares {x y : Service × World σ} (h : Turn x y) (hs : g.Uncalled root s)
    (hg : g.Grown x.2.graph) (hoff : s ∉ x.1.stack.nodes)
    (hown : x.1.service = s → x.2.isService s = false) :
    s ∉ y.1.stack.nodes ∧ y.2.graph.slot? s = x.2.graph.slot? s := by
  by_cases he : x.1.service = s
  · have hidle : x.2.ready x.1.service = (x.2, false) := by
      rw [he]
      exact World.ready_of_not_isService (hown he)
    cases h with
    | declined v _ hr =>
      cases hidle.symm.trans hr
      exact ⟨hoff, rfl⟩
    | started v _ _ _ _ hr => cases hidle.symm.trans hr
    | cut v _ _ _ _ _ hr => cases hidle.symm.trans hr
    | @driven v w op _ _ hop _ =>
      refine (v.stack.perform_made w op).acts.spares hs hg (fun hh => ?_) hoff
      rcases hop with rfl | rfl <;> exact hh
  · obtain ⟨v, w⟩ := x
    exact h.made.stack.acts.spares hs hg (Ne.symm he) hoff

theorem Service.Turns.spares {x y : Service × World σ} (h : Turns x y) (hs : g.Uncalled root s)
    (hg : g.Grown x.2.graph) (hoff : s ∉ x.1.stack.nodes)
    (hown : x.1.service = s → x.2.isService s = false) :
    s ∉ y.1.stack.nodes ∧ y.2.graph.slot? s = x.2.graph.slot? s := by
  induction h with
  | refl => exact ⟨hoff, rfl⟩
  | @tail y z h ht ih =>
    have hmotions := Turns.motions h
    obtain ⟨hoff', hslot⟩ := ht.spares hs (hg.trans hmotions.frame.graph) ih.1 fun he => by
      rw [World.isService_eq ih.2]
      exact hown ((Motions.service hmotions).symm.trans he)
    exact ⟨hoff', hslot.trans ih.2⟩

namespace Tree

variable {call : HostCall} {t t' : Tree σ}

/-! ## What a service was told -/

/-- The node is no service at the moment, and on no service's stack. -/
structure Inert (s : NodeId) (t : Tree σ) : Prop where
  idle : t.world.isService s = false
  off : ∀ v ∈ t.services, s ∉ v.stack.nodes

/-- The node was told in turn that it is registered and that it no longer is, and what it was
told last is so, unless it is inert. -/
structure Alternates (g : Graph σ) (root s : NodeId) (t : Tree σ) : Prop where
  rooted : Rooted g root t
  main : s ∉ t.main.nodes
  beside : ∀ v ∈ t.services, v.service ≠ s → s ∉ v.stack.nodes
  alternating : Alternating (t.world.registrations s)
  current : t.Inert s ∨ (t.isRegistered s ↔ (t.world.registrations s).length % 2 = 1)

omit [Node σ] in
theorem isRegistered_iff_mem : t.isRegistered s ↔ s ∈ t.services.map (·.service) := by
  simp [isRegistered, service?]

namespace Alternates

theorem not_inert (h : Alternates g root s t) (hi : t.world.isService s) :
    t.isRegistered s ↔ (t.world.registrations s).length % 2 = 1 :=
  h.current.resolve_left fun hinert => by simp [hinert.idle] at hi

/-- Nothing is registered, and nothing that is inert is called. -/
theorem of_same (h : Alternates g root s t) (hrooted : Rooted g root t')
    (hmain : s ∉ t'.main.nodes)
    (hbeside : ∀ v ∈ t'.services, v.service ≠ s → s ∉ v.stack.nodes)
    (hr : t'.world.registrations s = t.world.registrations s)
    (hreg : t'.isRegistered s ↔ t.isRegistered s) (hinert : t.Inert s → t'.Inert s) :
    Alternates g root s t' where
  rooted := hrooted
  main := hmain
  beside := hbeside
  alternating := hr ▸ h.alternating
  current := h.current.imp hinert fun hc => by rw [hreg, hr]; exact hc

/-- The service is told that it comes or goes; with that what it was told is so again. -/
theorem told (hrooted : Rooted g root t') (hmain : s ∉ t'.main.nodes)
    (hbeside : ∀ v ∈ t'.services, v.service ≠ s → s ∉ v.stack.nodes) {b : Bool}
    (hreg : t'.isRegistered s = b) (halt : Alternating (t.world.registrations s))
    (hr : t'.world.registrations s = t.world.registrations s ++ [b])
    (hlast : (t.world.registrations s).length % 2 = if b then 0 else 1) :
    Alternates g root s t' where
  rooted := hrooted
  main := hmain
  beside := hbeside
  alternating := by
    rw [hr]
    refine halt.append ?_
    cases b <;> simp [hlast]
  current := by
    refine .inr ?_
    rw [hr, hreg, List.length_append, List.length_singleton]
    cases b with
    | false =>
      have hodd : (t.world.registrations s).length % 2 = 1 := hlast
      exact iff_of_false (by simp) (by omega)
    | true =>
      have heven : (t.world.registrations s).length % 2 = 0 := hlast
      exact iff_of_true rfl (by omega)

theorem world (h : Alternates g root s t) {w : World σ} (hg : w.graph = t.world.graph)
    (hr : w.registrations s = t.world.registrations s) :
    Alternates g root s { t with world := w } :=
  h.of_same (h.rooted.world (hg ▸ .refl _)) h.main h.beside hr Iff.rfl
    fun hi => ⟨(World.isService_eq (by rw [hg])).trans hi.idle, hi.off⟩

theorem fields (h : Alternates g root s t) (running : Bool) (endedAt : Option Nat)
    (completedRuns : Nat) (lastResult : Option Bool) :
    Alternates g root s { t with running, endedAt, completedRuns, lastResult } :=
  h.of_same ⟨h.rooted.grown, h.rooted.root, h.rooted.attached⟩ h.main h.beside rfl Iff.rfl
    fun hi => ⟨hi.idle, hi.off⟩

/-- An operation on the main stack. -/
theorem keepMain (h : Alternates g root s t) (hs : g.Uncalled root s) {op : Stack.Operation}
    (hheads : ∀ id, op.Heads id → id = t.root) :
    Alternates g root s (t.keepMain (t.main.perform t.world op)).tree := by
  have hf := t.main.perform_frame t.world op
  obtain ⟨hmain, hslot⟩ := (t.main.perform_made t.world op).acts.spares hs h.rooted.grown
    (fun hh => hs.not_root ((hheads s hh).trans h.rooted.root)) h.main
  exact h.of_same ⟨h.rooted.grown.trans hf.graph, h.rooted.root, h.rooted.attached⟩ hmain h.beside
    (hf.registrations s) Iff.rfl fun hi => ⟨(World.isService_eq hslot).trans hi.idle, hi.off⟩

/-- A change of one service, which spares the node if it is inert or the service is another. -/
theorem putService (h : Alternates g root s t) {v v' : Service} {w : World σ}
    (hv : v ∈ t.services) (he : v'.service = v.service) (hf : t.world.Frame w)
    (hspares : s ∉ v.stack.nodes → (v.service = s → t.world.isService s = false) →
      s ∉ v'.stack.nodes ∧ w.graph.slot? s = t.world.graph.slot? s) :
    Alternates g root s { t.putService v' with world := w } := by
  refine h.of_same ⟨h.rooted.grown.trans hf.graph, h.rooted.root, fun u hu => ?_⟩ h.main
    (fun u hu hne => ?_) (hf.registrations s) ?_ fun hi => ?_
  · rcases mem_putService hu with ⟨rfl, -⟩ | ⟨hu, -⟩
    · rw [he]
      exact h.rooted.attached v hv
    · exact h.rooted.attached u hu
  · rcases mem_putService hu with ⟨rfl, -⟩ | ⟨hu, -⟩
    · have hother : v.service ≠ s := he ▸ hne
      exact (hspares (h.beside v hv hother) fun hself => absurd hself hother).1
    · exact h.beside u hu hne
  · rw [isRegistered_iff_mem, isRegistered_iff_mem, ← map_service_putService t v']
  · obtain ⟨hoff, hslot⟩ := hspares (hi.off v hv) fun _ => hi.idle
    refine ⟨(World.isService_eq hslot).trans hi.idle, fun u hu => ?_⟩
    rcases mem_putService hu with ⟨rfl, -⟩ | ⟨hu, -⟩
    · exact hoff
    · exact hi.off u hu

/-- The node itself is added to the services, and told so. -/
theorem add_self (h : Alternates g root s t) {owner : NodeId}
    (ho : s ∈ t.world.graph.servicesOf owner) (hr : ¬t.isRegistered s) :
    Alternates g root s { t with
      world := t.world.registered s, services := t.services ++ [.make s owner t.config] } := by
  have hrooted := h.rooted.addService ho (t.world.registered_grown s)
  have hoff : ∀ v ∈ t.services ++ [.make s owner t.config], s ∉ v.stack.nodes := by
    intro v hv
    rcases List.mem_append.1 hv with hv | hv
    · exact h.beside v hv fun he =>
        hr (isRegistered_iff_mem.2 (he ▸ List.mem_map_of_mem hv))
    · rw [List.mem_singleton.1 hv]
      exact List.not_mem_nil
  have hregs := World.registrations_registered_self t.world s
  by_cases hi : t.world.isService s
  · rw [if_pos hi] at hregs
    have hodd := mt (h.not_inert hi).2 hr
    refine told hrooted h.main (fun v hv _ => hoff v hv) (b := true) ?_ h.alternating hregs ?_
    · exact isRegistered_iff_mem.2 (by simp [Service.make])
    · show _ = 0
      omega
  · have hidle : t.world.isService s = false := by simpa using hi
    rw [if_neg hi, List.append_nil] at hregs
    refine ⟨hrooted, h.main, fun v hv _ => hoff v hv, hregs ▸ h.alternating, .inl ⟨?_, hoff⟩⟩
    show (t.world.registered s).isService s = false
    rwa [World.registered_of_not_isService hidle]

/-- Another node is added to the services. -/
theorem add_other (h : Alternates g root s t) {owner service : NodeId}
    (ho : service ∈ t.world.graph.servicesOf owner) (hne : service ≠ s) :
    Alternates g root s { t with
      world := t.world.registered service
      services := t.services ++ [.make service owner t.config] } := by
  have hoff : s ∉ (Service.make service owner t.config).stack.nodes := List.not_mem_nil
  refine h.of_same (h.rooted.addService ho (t.world.registered_grown service)) h.main
    (fun v hv hother => ?_) (World.registrations_registered_of_ne _ hne) ?_
    fun hinert => ⟨?_, fun v hv => ?_⟩
  · rcases List.mem_append.1 hv with hv | hv
    · exact h.beside v hv hother
    · exact List.mem_singleton.1 hv ▸ hoff
  · rw [isRegistered_iff_mem, isRegistered_iff_mem, List.map_append]
    simp [Service.make, Ne.symm hne]
  · have hslot := (World.Local.registered t.world service).slot? s (Ne.symm hne)
    exact (World.isService_eq hslot).trans hinert.idle
  · rcases List.mem_append.1 hv with hv | hv
    · exact hinert.off v hv
    · exact List.mem_singleton.1 hv ▸ hoff

theorem register (h : Alternates g root s t) {owner service : NodeId}
    (ho : service ∈ t.world.graph.servicesOf owner) :
    Alternates g root s (registerService owner t service) := by
  unfold registerService
  split
  · exact h
  next hr =>
  have hadded : Alternates g root s { t with
      world := t.world.registered service
      services := t.services ++ [.make service owner t.config] } := by
    by_cases hs : service = s
    · subst hs
      exact h.add_self ho hr
    · exact h.add_other ho hs
  exact hadded.world rfl ((World.Keeps.trace ..).registrations s)

/-- The node itself is taken from the services, and told so if it is still a service. -/
theorem remove_self (h : Alternates g root s t) (ht : t.Sound) {w : World σ}
    (hf : t.world.Frame w) (hreg : t.isRegistered s)
    (hslot : t.Inert s → w.graph.slot? s = t.world.graph.slot? s) :
    Alternates g root s { t with
      world := w.unregistered s, services := t.services.eraseP (·.service = s) } := by
  have hrooted := h.rooted.eraseService s (hf.graph.trans (w.unregistered_grown s))
  have hnone := find?_eraseP_self (s := s) ht.nodup
  have hoff : ∀ v ∈ t.services.eraseP (·.service = s), s ∉ v.stack.nodes := fun v hv =>
    h.beside v (List.mem_of_mem_eraseP hv) (by simpa using List.find?_eq_none.1 hnone v hv)
  have hregs := hf.registrations s
  by_cases hi : w.isService s
  · have hcurrent := h.current.resolve_left fun hinert => by
      rw [World.isService_eq (hslot hinert), hinert.idle] at hi
      cases hi
    refine told hrooted h.main (fun v hv _ => hoff v hv) (b := false) ?_ h.alternating ?_
      (hcurrent.1 hreg)
    · simp [isRegistered, service?, hnone]
    · rw [← hregs]
      exact (World.registrations_unregistered_self w s).trans (by rw [if_pos hi])
  · have hidle : w.isService s = false := by simpa using hi
    have hsame := World.unregistered_of_not_isService hidle
    refine ⟨hrooted, h.main, fun v hv _ => hoff v hv, ?_, .inl ⟨?_, hoff⟩⟩
    · show Alternating ((w.unregistered s).registrations s)
      rw [hsame, hregs]
      exact h.alternating
    · show (w.unregistered s).isService s = false
      rwa [hsame]

/-- Another node is taken from the services. -/
theorem remove_other (h : Alternates g root s t) {service : NodeId} {w : World σ}
    (hf : t.world.Frame w) (hne : service ≠ s)
    (hslot : t.Inert s → w.graph.slot? s = t.world.graph.slot? s) :
    Alternates g root s { t with
      world := w.unregistered service
      services := t.services.eraseP (·.service = service) } := by
  refine h.of_same (h.rooted.eraseService service (hf.graph.trans (w.unregistered_grown service)))
    h.main (fun v hv => h.beside v (List.mem_of_mem_eraseP hv))
    ((World.registrations_unregistered_of_ne _ hne).trans (hf.registrations s)) ?_
    fun hinert => ⟨?_, fun v hv => hinert.off v (List.mem_of_mem_eraseP hv)⟩
  · simp [isRegistered, service?, find?_eraseP_of_ne (Ne.symm hne)]
  · have hunregistered := (World.Local.unregistered w service).slot? s (Ne.symm hne)
    exact (World.isService_eq (hunregistered.trans (hslot hinert))).trans hinert.idle

theorem unregister (h : Alternates g root s t) (ht : t.Sound) (hs : g.Uncalled root s)
    (owner service : NodeId) :
    Alternates g root s (unregisterService owner ⟨t, none⟩ service).tree := by
  cases hv : t.service? service with
  | none =>
    simp only [unregisterService, hv]
    exact h
  | some v =>
  obtain ⟨hm, rfl⟩ := service?_eq_some hv
  have hf := v.stack.perform_frame t.world .terminate
  have hmade : Stack.Made (fun _ => False) v.stack t.world (v.stack.terminate t.world) :=
    v.stack.terminate_made t.world
  have hslot := fun hinert : t.Inert s =>
    (hmade.acts.spares hs h.rooted.grown not_false (hinert.off v hm)).2
  have hremoved : Alternates g root s { t with
      world := (v.stack.terminate t.world).world.unregistered v.service
      services := t.services.eraseP (·.service = v.service) } := by
    by_cases hself : v.service = s
    · subst hself
      exact h.remove_self ht hf (by rw [isRegistered, hv]; rfl) hslot
    · exact h.remove_other hf hself hslot
  simp only [unregisterService, hv]
  exact hremoved.world rfl ((World.Keeps.trace ..).registrations s)

end Alternates

/-! ## Every call -/

theorem Chore.alternates (hc : Chore t t') (ht : t.Sound) (hs : g.Uncalled root s)
    (h : Alternates g root s t) : Alternates g root s t' := by
  cases hc with
  | take => exact h.world rfl rfl
  | register ho => exact h.register ho
  | unregister owner service => exact h.unregister ht hs owner service
  | count => exact h.fields ..

theorem Alternates.settle (h : Alternates g root s t) (ht : t.Sound) (hs : g.Uncalled root s) :
    Alternates g root s t.settle.tree :=
  settle_induction ht h fun _ _ hu hc hp => hc.alternates hu hs hp

theorem Round.alternates (hr : Round call t t') (ht : t.Settled) (hs : g.Uncalled root s)
    (h : Alternates g root s t) : Alternates g root s t' := by
  have hmain : ∀ {u : Tree σ} (op : Stack.Operation), u.Sound → Alternates g root s u →
      (∀ id, op.Heads id → id = u.root) →
      Alternates g root s (u.keepMain (u.main.perform u.world op)).settle.tree :=
    fun _ hu h hheads => (h.keepMain hs hheads).settle (hu.keepMain _) hs
  cases hr with
  | drive _ _ _ hd => exact hmain _ ht.sound h hd.heads
  | hand hd => exact hmain _ ht.sound h fun id hid => absurd hid (hands_heads hd id)
  | @serve v v' w _ hv hturns =>
    have hsound := (motions_service ht.sound hv hturns.motions).sound ht.sound
    exact (h.putService hv (Service.Motions.service hturns.motions) hturns.motions.frame
      (hturns.spares hs h.rooted.grown)).settle hsound hs
  | @handService v op hv hd =>
    have hf := v.stack.perform_frame t.world op
    have hmade := v.stack.perform_made t.world op
    have hput : Alternates g root s (t.keepService (v.keep (v.stack.perform t.world op))).tree :=
      h.putService hv rfl hf fun hoff _ =>
        hmade.acts.spares hs h.rooted.grown (hands_heads hd s) hoff
    exact hput.settle
      (ht.sound.putService hv rfl hmade.label hf ((ht.sound.services v hv).perform op)) hs
  | start =>
    exact hmain (.restart t.root) (ht.fields true none).sound (h.fields ..) fun _ hid => hid
  | terminate =>
    exact hmain .terminate (ht.fields false t.endedAt).sound (h.fields ..)
      fun _ hid => hid.elim
  | fire => exact h.world rfl ((World.Keeps.trace ..).registrations s)
  | report => exact h.world rfl ((World.Keeps.report ..).registrations s)
  | phase | setVariables => exact h.world rfl rfl
  | config =>
    refine h.of_same ⟨h.rooted.grown, h.rooted.root, fun v hv => ?_⟩ h.main (fun v hv => ?_) rfl
      ?_ fun hinert => ⟨hinert.idle, fun v hv => ?_⟩
    · obtain ⟨u, hu, rfl⟩ := List.mem_map.1 hv
      exact h.rooted.attached u hu
    · obtain ⟨u, hu, rfl⟩ := List.mem_map.1 hv
      exact h.beside u hu
    · simp [isRegistered_iff_mem, withConfig]
    · obtain ⟨u, hu, rfl⟩ := List.mem_map.1 hv
      exact hinert.off u hu

theorem alternates_make {b : Blackboard} (h : make g root b = .ok t) :
    Alternates g root s t := by
  have hrooted := rooted_make h
  obtain ⟨-, rfl⟩ := make_ok h
  exact ⟨hrooted, by simp, by simp, fun i c hc => by simp [World.registrations] at hc,
    .inr (by simp [World.registrations, isRegistered, service?])⟩

/-- In a tree where every node has one place, whatever a host calls: each service is listed
once, and listed exactly if the node that it is attached to is on the main stack or on the
stack of a listed service; and every service is told in turn that it is registered and that it
no longer is. -/
theorem registered_iff_owner_active {b : Blackboard} {t : Tree σ} (hb : g.Built)
    (hm : make g root b = .ok t) (hp : g.SinglyPlaced root) (hc : g.CallsChildren)
    (calls : List HostCall) :
    ((t.performAll calls).services.map (·.service)).Nodup ∧
    (∀ s, (t.performAll calls).isRegistered s ↔ ∃ owner, g.owner? s = some owner ∧
      (owner ∈ (t.performAll calls).main.nodes ∨
        ∃ v ∈ (t.performAll calls).services, owner ∈ v.stack.nodes)) ∧
    ∀ s, Alternating ((t.performAll calls).world.registrations s) := by
  obtain ⟨hnodup, hiff⟩ := listed_once_iff hb hm hp hc calls
  refine ⟨hnodup, hiff, fun s => ?_⟩
  by_cases hs : ∃ owner, s ∈ g.servicesOf owner
  · obtain ⟨owner, ho⟩ := hs
    have huncalled : g.Uncalled root s :=
      ⟨hc, fun he => hp.root_free owner (he ▸ ho), hp.service_no_child owner s ho⟩
    exact (rounds_induction (settled_make hm) (alternates_make (s := s) hm)
      (fun _ _ _ hu hr h => hr.alternates hu huncalled h) calls).alternating
  · rw [registrations_of_unattached hm (fun owner ho => hs ⟨owner, ho⟩) calls]
    intro i c hi
    cases hi

/-- A service is registered when its owner is started, and torn down when the host ends the
tree. -/
theorem registered_beaconBeside :
    ∃ t, make beaconBeside ⟨2⟩ {} = .ok t ∧
      (t.performAll [.start, .update 0]).isRegistered ⟨1⟩ ∧
      ((t.performAll [.start, .update 0]).services.map (·.service)).Nodup ∧
      ¬(t.performAll [.start, .update 0, .terminate]).isRegistered ⟨1⟩ ∧
      (t.performAll [.start, .update 0, .terminate, .start]).world.registrations ⟨1⟩
        = [true, false, true] ∧
      Alternating
        ((t.performAll [.start, .update 0, .terminate, .start]).world.registrations ⟨1⟩) := by
  have hm : make beaconBeside ⟨2⟩ {}
      = .ok { root := ⟨2⟩, world := ⟨beaconBeside, {}, {}, {}, {}, []⟩ } := rfl
  have h := registered_iff_owner_active built_beaconBeside hm (by decide)
    callsChildren_beaconBeside
  exact ⟨_, hm, by decide +kernel, (h _).1, by decide +kernel, by decide +kernel, (h _).2.2 ⟨1⟩⟩

end Tree

end BehaviorTree
