/-
Calls and returns on a stack are well bracketed.

Between its call of a child and the child's end a node is not turned to, and the next node
that is turned to after the end is the caller, which is handed the child's outcome; only
clearing the stack drops it. Of the two halves the first is about the nodes of the stack, each
of which was called by the one beneath (`CalledBy`), and the second about the ledger, which
allows no other turn while a result is owed.
-/
import Mathlib.Data.List.Chain
import Mathlib.Data.List.Induction
import BehaviorTree.Proofs.Stack.Marks

namespace BehaviorTree

/-- The call hands a node the turn: it is executed, or handed the result of its child. -/
def Call.isTurn : Call → Bool
  | execute | receive _ => true
  | _ => false

/-- A node was turned to, or the stack was cleared. -/
def Mark.settles : Mark → Bool
  | called _ call => call.isTurn
  | cleared => true
  | _ => false

/-- The node `caller` called `child` onto the stack, for the last time so far, and was not
turned to since. -/
def CalledBy (marks : List Mark) (child caller : NodeId) : Prop :=
  ∃ earlier since, marks = earlier ++ .came child (some caller) :: since ∧
    (∀ call : Call, call.isTurn → .called caller call ∉ since) ∧ ∀ c, .came child c ∉ since

/-- Calls and returns are paired. -/
structure Bracketed (marks : List Mark) : Prop where
  /-- A node that ends was called by the node beneath, which has waited for it since. -/
  called : ∀ before e after caller, marks = before ++ .ended e :: after →
    e.beneath = some caller → CalledBy before e.node caller
  /-- The outcome is what the next turn is about, unless the stack is cleared first. -/
  delivered : ∀ before e between m after caller,
    marks = before ++ .ended e :: (between ++ m :: after) → e.beneath = some caller →
    (∀ m' ∈ between, m'.settles = false) → m.settles →
      m = .cleared ∨ m = .called caller (.receive e.ok)
  /-- Nothing else is ever handed to a node. -/
  received : ∀ before caller ok after, marks = before ++ .called caller (.receive ok) :: after →
    ∃ earlier e between, before = earlier ++ .ended e :: between ∧ e.beneath = some caller ∧
      e.ok = ok ∧ ∀ m ∈ between, m.settles = false

/-! ## What is owed -/

namespace Ledger

variable {l : Ledger} {marks : List Mark}

/-- As long as nothing is settled, what is owed stays owed. -/
theorem Permits.owed (h : l.Permits marks) {x : NodeId × Bool} (ho : l.owed = some x)
    (hs : ∀ m ∈ marks, m.settles = false) : (l.balance marks).owed = some x := by
  induction marks generalizing l with
  | nil => exact ho
  | cons m marks ih =>
    refine ih h.2 ?_ fun m' hm => hs m' (List.mem_cons_of_mem _ hm)
    have ha := h.1
    have hm := hs m List.mem_cons_self
    cases m with
    | called node call =>
      cases call with
      | bind | hook => exact absurd (ho.symm.trans ha.1) (by simp)
      | execute | receive => cases hm
      | stop | ready | registered | unregistered => exact ho
    | ended e => exact absurd (ho.symm.trans ha) (by simp)
    | cleared => cases hm
    | came | rolledBack | resumed => exact ho

/-- What is owed is the outcome of a node that ended, and nothing was settled since. -/
theorem ended_of_owed {caller : NodeId} {ok : Bool}
    (h : (({} : Ledger).balance marks).owed = some (caller, ok)) :
    ∃ earlier e between, marks = earlier ++ .ended e :: between ∧ e.beneath = some caller ∧
      e.ok = ok ∧ ∀ m ∈ between, m.settles = false := by
  induction marks using List.reverseRecOn with
  | nil => cases h
  | append_singleton marks m ih =>
    rw [balance_append] at h
    -- A mark that leaves the debt as it was is one more that has settled nothing.
    have hkept : (({} : Ledger).balance marks).owed = some (caller, ok) → m.settles = false →
        ∃ earlier e between, marks ++ [m] = earlier ++ .ended e :: between ∧
          e.beneath = some caller ∧ e.ok = ok ∧ ∀ m ∈ between, m.settles = false := by
      intro ho hm
      obtain ⟨earlier, e, between, rfl, hb, hok, hbetween⟩ := ih ho
      refine ⟨earlier, e, between ++ [m], by simp, hb, hok, fun m' hm' => ?_⟩
      rcases List.mem_append.1 hm' with hm' | hm'
      · exact hbetween m' hm'
      · rwa [List.mem_singleton.1 hm']
    simp only [balance, List.foldl_cons, List.foldl_nil] at h
    cases m with
    | called node call => cases call <;> first | cases h | exact hkept h rfl
    | ended e =>
      obtain ⟨p, hp, he⟩ := Option.map_eq_some_iff.1 h
      cases he
      exact ⟨marks, e, [], rfl, hp, rfl, by simp⟩
    | cleared => cases h
    | came | rolledBack | resumed => exact hkept h rfl

/-- Each mark is allowed by what came before. -/
theorem Permits.allows {m : Mark} {before after : List Mark} (h : l.Permits marks)
    (he : marks = before ++ m :: after) :
    (l.balance before).Allows m ∧ ((l.balance before).enter m).Permits after := by
  rw [he] at h
  exact (permits_append.1 h).2

end Ledger

/-! ## Who called whom -/

theorem CalledBy.append {marks new : List Mark} {child caller : NodeId}
    (h : CalledBy marks child caller) (ht : ∀ call : Call, call.isTurn → .called caller call ∉ new)
    (hc : ∀ c, .came child c ∉ new) : CalledBy (marks ++ new) child caller := by
  obtain ⟨earlier, since, rfl, hturn, hcame⟩ := h
  refine ⟨earlier, since ++ new, by simp, fun call hcall hm => ?_, fun c hm => ?_⟩
  · exact (List.mem_append.1 hm).elim (hturn call hcall) (ht call hcall)
  · exact (List.mem_append.1 hm).elim (hcame c) (hc c)

namespace Stack

/-- The nodes are distinct, and each was called by the one beneath. -/
structure Linked (marks : List Mark) (nodes : List NodeId) : Prop where
  nodup : nodes.Nodup
  called : nodes.IsChain (CalledBy marks)

/-- Each node that ended was called by the node beneath. -/
def Called (before marks : List Mark) : Prop :=
  ∀ earlier e later caller, marks = earlier ++ .ended e :: later → e.beneath = some caller →
    CalledBy (before ++ earlier) e.node caller

variable {before marks new : List Mark} {nodes : List NodeId}

theorem Linked.append (h : Linked before nodes)
    (ht : ∀ n ∈ nodes.tail, ∀ call : Call, call.isTurn → .called n call ∉ new)
    (hc : ∀ n ∈ nodes, ∀ c, .came n c ∉ new) : Linked (before ++ new) nodes := by
  refine ⟨h.nodup, ?_⟩
  obtain ⟨hnodup, hcalled⟩ := h
  clear hnodup
  induction nodes with
  | nil => exact .nil
  | cons a nodes ih =>
    cases nodes with
    | nil => exact .singleton a
    | cons b nodes =>
      obtain ⟨hab, hrest⟩ := List.isChain_cons_cons.1 hcalled
      refine List.isChain_cons_cons.2 ⟨hab.append ?_ ?_, ih ?_ ?_ hrest⟩
      · exact ht b List.mem_cons_self
      · exact hc a List.mem_cons_self
      · exact fun n hn => ht n (List.mem_cons_of_mem b hn)
      · exact fun n hn => hc n (List.mem_cons_of_mem a hn)

/-- The top node goes. -/
theorem Linked.tail {top : NodeId} (h : Linked before (top :: nodes)) : Linked before nodes :=
  ⟨(List.nodup_cons.1 h.nodup).2, h.called.tail⟩

theorem Called.nil (before : List Mark) : Called before [] := by
  intro earlier e later caller h
  simp at h

theorem Called.append (h : Called before marks) (h' : Called (before ++ marks) new) :
    Called before (marks ++ new) := by
  intro earlier e later caller he hb
  rcases List.append_eq_append_iff.1 he with ⟨between, rfl, he'⟩ | ⟨between, he', hb'⟩
  · rw [← List.append_assoc]
    exact h' between e later caller he' hb
  · cases between with
    | nil =>
      rw [List.append_nil] at he'
      subst he'
      simpa using h' [] e later caller hb'.symm hb
    | cons m between =>
      rw [List.cons_append] at hb'
      injection hb' with hm hrest
      subst hm
      exact h earlier e between caller he' hb

/-- No node ended. -/
theorem Called.of_none (h : ∀ e, .ended e ∉ marks) : Called before marks := by
  intro earlier e later caller he
  exact absurd (by simp [he]) (h e)

/-- The top node ended. -/
theorem Linked.ended {e : Ending} (h : Linked before (e.node :: nodes))
    (hb : e.beneath = nodes.head?) : Called before [.ended e] := by
  intro earlier e' later caller he hcaller
  cases earlier with
  | cons m earlier => simp at he
  | nil =>
    obtain rfl : e = e' := by simpa using (List.cons.inj he).1
    rw [hb] at hcaller
    obtain ⟨rest, rfl⟩ := List.head?_eq_some_iff.1 hcaller
    rw [List.append_nil]
    exact (List.isChain_cons_cons.1 h.called).1

section Sessions

variable {σ : Type} [Node σ] {s : Stack} {v : World σ} {op : Operation}
  {x y : List NodeId × World σ}

/-- Every act leaves nodes that were called by the ones beneath. -/
theorem MarkedAct.linked (h : MarkedAct s v op x new y) (hx : Linked before x.1) :
    Linked (before ++ new) y.1 ∧ Called before new := by
  have hcalls : ∀ (top : NodeId) (rest : List NodeId) (calls : List Call),
      Linked before (top :: rest) →
      Linked (before ++ calls.map (.called top)) (top :: rest) ∧
        Called before (calls.map (.called top)) := by
    intro top rest calls hx
    refine ⟨hx.append (fun n hn call _ hm => ?_) (fun n _ c hm => ?_), .of_none fun e hm => ?_⟩
    · obtain ⟨c, -, he⟩ := List.mem_map.1 hm
      cases he
      exact (List.nodup_cons.1 hx.nodup).1 hn
    · simp at hm
    · simp at hm
  cases h with
  | quiet => exact ⟨by simpa using hx, .nil _⟩
  | turned | hooked => exact hcalls _ _ _ hx
  | @head w id =>
    exact ⟨⟨by simp, .singleton id⟩, .of_none (by simp)⟩
  | @called caller rest w child _ _ hn =>
    refine ⟨⟨List.nodup_cons.2 ⟨hn, hx.nodup⟩, List.isChain_cons_cons.2 ⟨?_, ?_⟩⟩,
      .of_none (by simp)⟩
    · exact ⟨before, [], rfl, by simp, by simp⟩
    · refine (hx.append (fun _ _ _ _ => by simp) fun n hm c hc => ?_).called
      simp only [List.mem_singleton, Mark.came.injEq] at hc
      rw [hc.1] at hm
      exact hn hm
  | answered | ended =>
    exact ⟨(hx.append (by simp) (by simp)).tail, hx.ended rfl⟩
  | rolledBack => exact ⟨(hx.append (by simp) (by simp)).tail, .of_none (by simp)⟩
  | cleared | resumed => exact ⟨hx.append (by simp [Call.isTurn]) (by simp), .of_none (by simp)⟩

theorem MarkedActs.linked (h : MarkedActs s v op x new y) (hx : Linked before x.1) :
    Linked (before ++ new) y.1 ∧ Called before new := by
  induction h with
  | refl => exact ⟨by simpa using hx, .nil _⟩
  | tail _ hb ih =>
    obtain ⟨hlinked, hcalled⟩ := hb.linked ih.1
    exact ⟨by rwa [← List.append_assoc], ih.2.append hcalled⟩

/-! ## Sessions -/

/-- What is done to a stack and the world that serves it alone. Between two operations the
host may set the clock and the variables, and take what is due or queued. -/
inductive Order where
  | operate (op : Operation)
  | meanwhile (tick : Tick) (values : Blackboard) (schedule : Schedule)
      (events : Queue StackEvent)

def obey (x : Stack × World σ) : Order → Stack × World σ
  | .operate op => ((x.1.perform x.2 op).after, (x.1.perform x.2 op).world)
  | .meanwhile tick values schedule events =>
    (x.1, { x.2 with tick, blackboard := values, schedule, events })

/-- The marks of a number of orders, one after the other. -/
inductive MarkedOrders : Stack × World σ → List Order → List Mark → Stack × World σ → Prop
  | nil (x : Stack × World σ) : MarkedOrders x [] [] x
  | operate {s : Stack} {w : World σ} {op : Operation} {orders : List Order}
      {new marks : List Mark} {y : Stack × World σ}
      (h : MarkedActs s w op (s.nodes, w) new
        ((s.perform w op).after.nodes, (s.perform w op).world))
      (h' : MarkedOrders (obey (s, w) (.operate op)) orders marks y) :
      MarkedOrders (s, w) (.operate op :: orders) (new ++ marks) y
  | meanwhile {x y : Stack × World σ} {tick : Tick} {values : Blackboard}
      {schedule : Schedule} {events : Queue StackEvent} {orders : List Order} {marks : List Mark}
      (h : MarkedOrders (obey x (.meanwhile tick values schedule events)) orders marks y) :
      MarkedOrders x (.meanwhile tick values schedule events :: orders) marks y

/-- The happenings of a session are those that its marks tell of. -/
theorem MarkedOrders.happenings {x y : Stack × World σ} {orders : List Order}
    (h : MarkedOrders x orders marks y) :
    y.2.happenings = x.2.happenings ++ marks.flatMap (Mark.happenings x.1.label) := by
  induction h with
  | nil => simp
  | @operate s w op _ _ _ _ h _ ih =>
    have hl : (s.perform w op).after.label = s.label := (s.perform_made w op).label
    rw [ih, List.flatMap_append, ← List.append_assoc]
    rw [show (obey (s, w) (.operate op)).1.label = s.label from hl]
    exact congrArg₂ _ h.happenings rfl
  | meanwhile _ ih => exact ih

/-- A session, whatever its orders, makes marks that the ledger allows. -/
theorem exists_told {l : Ledger} (x : Stack × World σ) (hfits : Fits l x.1)
    (hp : Placed (x.1.nodes, x.2)) (hlinked : Linked before x.1.nodes) (orders : List Order) :
    ∃ marks, MarkedOrders x orders marks (orders.foldl obey x) ∧ l.Permits marks ∧
      Fits (l.balance marks) (orders.foldl obey x).1 ∧ Called before marks := by
  induction orders generalizing l x before with
  | nil => exact ⟨[], .nil x, trivial, hfits, .nil _⟩
  | cons order orders ih =>
    cases order with
    | operate op =>
      obtain ⟨s, w⟩ := x
      obtain ⟨new, hnew⟩ := perform_booked hfits hp op
      obtain ⟨hlinked', hcalled⟩ := hnew.acts.linked hlinked
      obtain ⟨marks, htold, hpermits, hend, hmore⟩ := ih (obey (s, w) (.operate op)) hnew.fits
        ((s.perform_made w op).acts.placed hp) hlinked'
      refine ⟨new ++ marks, .operate hnew.acts htold,
        Ledger.permits_append.2 ⟨hnew.permits, hpermits⟩, ?_, hcalled.append hmore⟩
      rwa [Ledger.balance_append]
    | meanwhile tick values schedule events =>
      obtain ⟨marks, htold, hrest⟩ :=
        ih (obey x (.meanwhile tick values schedule events)) hfits hp hlinked
      exact ⟨marks, .meanwhile htold, hrest⟩

/-- In every session of a new stack calls and returns are well bracketed, and a result that
was not delivered or dropped yet is still on its way to the node that called. -/
theorem bracketed_of_orders (label : StackLabel) (w : World σ) (orders : List Order) :
    let last := orders.foldl obey ({ label }, w)
    ∃ marks, MarkedOrders ({ label }, w) orders marks last ∧ Bracketed marks ∧
      last.2.happenings = w.happenings ++ marks.flatMap (Mark.happenings label) ∧
      ∀ before e after caller, marks = before ++ .ended e :: after → e.beneath = some caller →
        (∀ m ∈ after, m.settles = false) →
          last.1.state = .receiving ∧ last.1.result = some e.ok ∧ last.1.top? = some caller := by
  intro last
  have hfits : Fits {} ({ label } : Stack) := ⟨rfl, by simp, by simp⟩
  have hlinked : Linked [] [] := ⟨List.nodup_nil, .nil⟩
  obtain ⟨marks, htold, hpermits, hend, hcalled⟩ :=
    exists_told ({ label }, w) hfits ⟨List.nodup_nil, by simp⟩ hlinked orders
  have howed : ∀ before e after caller, marks = before ++ .ended e :: after →
      e.beneath = some caller →
      ∀ between more, after = between ++ more → (∀ m ∈ between, m.settles = false) →
        (({} : Ledger).balance (before ++ .ended e :: between)).owed = some (caller, e.ok) := by
    intro before e after caller he hb between more hafter hbetween
    obtain ⟨-, hafter'⟩ := hpermits.allows he
    rw [hafter] at hafter'
    rw [Ledger.balance_append]
    exact (Ledger.permits_append.1 hafter').1.owed (by simp [Ledger.enter, hb]) hbetween
  refine ⟨marks, htold, ⟨?_, ?_, ?_⟩, htold.happenings, ?_⟩
  · intro before e after caller he hb
    simpa using hcalled before e after caller he hb
  · intro before e between m after caller he hb hbetween hm
    have ho := howed before e _ caller he hb between (m :: after) rfl hbetween
    have he' : marks = (before ++ .ended e :: between) ++ m :: after := by simpa using he
    have ha := (hpermits.allows he').1
    cases m with
    | called node call =>
      cases call with
      | execute => exact absurd (ho.symm.trans ha.1) (by simp)
      | receive ok =>
        cases ho.symm.trans ha
        exact .inr rfl
      | bind | stop | hook | ready | registered | unregistered => cases hm
    | cleared => exact .inl rfl
    | came | ended | rolledBack | resumed => cases hm
  · intro before caller ok after he
    exact Ledger.ended_of_owed (hpermits.allows he).1
  · intro before e after caller he hb hafter
    have ho := howed before e after caller he hb after [] (by simp) hafter
    rw [← he, hend.owed] at ho
    obtain ⟨top, htop, ho⟩ := Option.bind_eq_some_iff.1 ho
    obtain ⟨ok, hok, ho⟩ := Option.map_eq_some_iff.1 ho
    cases ho
    exact ⟨hend.pending.1 (by rw [hok]; rfl), hok, htop⟩

end Sessions

end Stack

end BehaviorTree
