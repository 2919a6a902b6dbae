/-
Blackboards over time, and the references that are used on them.

A host makes blackboards and clones them, stores to their variables, binds references and
parameters, and reads through those. A reference is held on the blackboard that gave it out
and on every one that is cloned from there afterwards. A host that uses references only
where they are held never breaks an access: what carries the argument along a history is
that every reference fits each blackboard on which it is held (`Coherent`), and a call whose
own reference fits keeps all the types.

What a variable holds is told by the history alone: `stored` looks back for the last value
that was stored to it on its blackboard, or, from the time before a cloning, on the one that
was cloned.
-/
import Mathlib.Logic.Function.Basic
import BehaviorTree.Proofs.Blackboard.Edits

namespace BehaviorTree

theorem exists_of_map_eq_ok {ε α β : Type} {x : Except ε α} {f : α → β} {y : β}
    (h : x.map f = .ok y) : ∃ a, x = .ok a ∧ f a = y := by
  cases x with
  | error e => cases h
  | ok a => exact ⟨a, rfl, Except.ok.inj h⟩

/-- A reference of either kind. -/
inductive Reference where
  | typed {t : ValueType} (r : VarRef t)
  | number (r : NumberRef)

def Reference.Fits : Reference → Blackboard → Prop
  | typed r, b => r.Fits b
  | number r, b => r.Fits b

theorem Reference.Fits.keeps {r : Reference} {b b' : Blackboard} (h : r.Fits b)
    (hk : b.Keeps b') : r.Fits b' := by
  cases r with
  | typed r => exact VarRef.Fits.keeps h hk
  | number r => exact NumberRef.Fits.keeps h hk

/-! ## One blackboard -/

/-- The reference that the call stores through. -/
def Edit.uses : Edit → Option Reference
  | write r _ => some (.typed r)
  | writeNumber r _ => some (.number r)
  | _ => none

/-- What can be asked of a blackboard. -/
inductive Query where
  | edit (e : Edit)
  | bind (t : ValueType) (id : VariableId)
  | bindNumber (id : VariableId)
  | bindField {t : ValueType} (f : Field t)
  | bindNumberField (f : NumberField)
  | read {t : ValueType} (r : VarRef t)
  | readNumber (r : NumberRef)
  | readField {t : ValueType} (f : Field t)
  | readNumberField (f : NumberField)

inductive Answer where
  | made (board : Nat)
  | absent
  | done
  | failed (failure : Failure)
  | reference (r : Reference)
  | field {t : ValueType} (f : Field t)
  | numberField (f : NumberField)
  | value (v : Value)
  | number (x : Float32)
  | unbound

namespace Query

/-- The reference through which a variable is read. -/
def reads : Query → Option Reference
  | read r | readField (.bound r) => some (.typed r)
  | readNumber r | readNumberField (.bound r) => some (.number r)
  | _ => none

/-- The reference that has to fit the blackboard. -/
def uses : Query → Option Reference
  | edit e => e.uses
  | q => q.reads

theorem uses_of_reads {q : Query} {r : Reference} (h : q.reads = some r) : q.uses = some r := by
  cases q with
  | edit e => cases h
  | _ => exact h

/-- The reference that the host holds from then on. -/
def gives : Query → Answer → Option Reference
  | bind .., .reference r | bindNumber _, .reference r => some r
  | bindField (.unbound _), .field (.bound r) => some (.typed r)
  | bindNumberField (.unbound _), .numberField (.bound r) => some (.number r)
  | _, _ => none

/-- The blackboard afterwards with the answer, or why there is none. -/
def run (b : Blackboard) : Query → Except Failure (Blackboard × Answer)
  | edit e => (e.attempt b).map fun b' => (b', .done)
  | bind t id => ((b.bind t id).mapError .refused).map fun r => (b, .reference (.typed r))
  | bindNumber id => ((b.bindNumber id).mapError .refused).map fun r => (b, .reference (.number r))
  | bindField f => ((f.bind b).mapError .refused).map fun f' => (b, .field f')
  | bindNumberField f => ((f.bind b).mapError .refused).map fun f' => (b, .numberField f')
  | @read t r => ((b.read r).mapError .broken).map fun x => (b, .value (Value.make t x))
  | readNumber r => ((b.readNumber r).mapError .broken).map fun x => (b, .number x)
  | @readField t f => ((f.read b).mapError .broken).map fun x =>
    (b, x.elim .unbound fun x => .value (Value.make t x))
  | readNumberField f => ((f.read b).mapError .broken).map fun x => (b, x.elim .unbound .number)

end Query

namespace Blackboard

variable {b : Blackboard} {q : Query} {e : Edit} {r : Reference}

/-- The blackboard after what was asked of it, and the answer. -/
def answer (b : Blackboard) (q : Query) : Blackboard × Answer :=
  match q.run b with
  | .ok result => result
  | .error failure => (b, .failed failure)

theorem answer_edit (b : Blackboard) (e : Edit) :
    b.answer (.edit e) = ((b.edit e).1, (b.edit e).2.elim .done .failed) := by
  cases h : e.attempt b <;> simp [answer, Query.run, edit, h, Except.map]

/-- Only a call that stores can change the blackboard. -/
theorem fst_answer_eq (h : ∀ e, q ≠ .edit e) : (b.answer q).1 = b := by
  unfold answer
  split
  next result hr =>
    cases q with
    | edit e => exact absurd rfl (h e)
    | _ =>
      obtain ⟨x, -, rfl⟩ := exists_of_map_eq_ok hr
      rfl
  · rfl

theorem answer_of_failed {failure : Failure} (h : (b.answer q).2 = .failed failure) :
    (b.answer q).1 = b := by
  cases q with
  | edit e =>
    rw [answer_edit] at h ⊢
    cases hf : (b.edit e).2 with
    | none => simp [hf] at h
    | some _ => exact edit_of_failure hf
  | _ => exact fst_answer_eq nofun

/-- What the blackboard gives out fits it. -/
theorem fits_of_gives (h : q.gives (b.answer q).2 = some r) : r.Fits b := by
  cases q with
  | bind t id =>
    cases hb : b.bind t id with
    | error e => simp [answer, Query.run, hb, Except.map, Query.gives] at h
    | ok r' =>
      obtain rfl : .typed r' = r := by simpa [answer, Query.run, hb, Except.map, Query.gives] using h
      exact VarRef.fits_of_bind hb
  | bindNumber id =>
    cases hb : b.bindNumber id with
    | error e => simp [answer, Query.run, hb, Except.map, Query.gives] at h
    | ok r' =>
      obtain rfl : .number r' = r := by simpa [answer, Query.run, hb, Except.map, Query.gives] using h
      exact NumberRef.fits_of_bindNumber hb
  | @bindField t f =>
    cases f with
    | unbound id =>
      cases hb : b.bind t id with
      | error e => simp [answer, Query.run, Field.bind, hb, Except.map, Query.gives] at h
      | ok r' =>
        obtain rfl : .typed r' = r := by
          simpa [answer, Query.run, Field.bind, hb, Except.map, Query.gives] using h
        exact VarRef.fits_of_bind hb
    | const _ | bound _ => simp [Query.gives] at h
  | bindNumberField f =>
    cases f with
    | unbound id =>
      cases hb : b.bindNumber id with
      | error e => simp [answer, Query.run, NumberField.bind, hb, Except.map, Query.gives] at h
      | ok r' =>
        obtain rfl : .number r' = r := by
          simpa [answer, Query.run, NumberField.bind, hb, Except.map, Query.gives] using h
        exact NumberRef.fits_of_bindNumber hb
    | const _ | bound _ => simp [Query.gives] at h
  | edit _ | read _ | readNumber _ | readField _ | readNumberField _ => simp [Query.gives] at h

/-- A call keeps all the types if the reference that it stores through fits. -/
theorem keeps_edit (h : ∀ r, e.uses = some r → r.Fits b) : b.Keeps (b.edit e).1 := by
  intro id t ht
  refine typeOf?_edit ht fun hr => ?_
  cases e with
  | write r x =>
    obtain ⟨rfl, hne⟩ := hr
    have hf : b.typeOf? r.id = some _ := h _ rfl
    exact hne (Option.some.inj (hf.symm.trans ht))
  | declare _ _ | set _ _ | writeNumber _ _ => exact hr

theorem keeps_answer (h : ∀ r, q.uses = some r → r.Fits b) : b.Keeps (b.answer q).1 := by
  by_cases hq : ∃ e, q = .edit e
  · obtain ⟨e, rfl⟩ := hq
    rw [answer_edit]
    exact keeps_edit h
  · rw [fst_answer_eq fun e he => hq ⟨e, he⟩]
    exact .refl b

/-- Storing through a reference that fits goes through. -/
theorem edit_of_uses (h : e.uses = some r) (hf : r.Fits b) : (b.edit e).2 = none := by
  cases e with
  | write r' x =>
    cases h
    obtain ⟨b', hb, -⟩ := VarRef.Fits.write hf x
    simp [edit, Edit.attempt, hb]
  | writeNumber r' x =>
    cases h
    obtain ⟨b', hb, -⟩ := NumberRef.Fits.write hf x
    simp [edit, Edit.attempt, hb]
  | declare _ _ | set _ _ => cases h

/-- Reading through a typed reference that fits gives what the variable holds. -/
theorem answer_of_reads_typed {t : ValueType} {r : VarRef t} (h : q.reads = some (.typed r))
    (hf : r.Fits b) : ∃ x, b.get? r.id = some (Value.make t x) ∧
      (b.answer q).2 = .value (Value.make t x) := by
  obtain ⟨v, hv, hvt⟩ := Option.map_eq_some_iff.1 hf
  obtain ⟨x, hx⟩ := Option.isSome_iff_exists.1 (Value.isSome_as?_iff.2 hvt)
  obtain rfl := Value.as?_eq_some_iff.1 hx
  have hr : b.read r = .ok x := by simp [Blackboard.read, hv]
  refine ⟨x, hv, ?_⟩
  cases q with
  | read r' =>
    cases h
    simp [answer, Query.run, hr, Except.map]
  | readField f =>
    cases f with
    | bound r' =>
      cases h
      simp [answer, Query.run, Field.read, hr, Except.map]
    | const _ | unbound _ => cases h
  | readNumberField f => cases f <;> cases h
  | _ => cases h

/-- Reading through a number reference that fits gives the number that the variable holds. -/
theorem answer_of_reads_number {r : NumberRef} (h : q.reads = some (.number r))
    (hf : r.Fits b) : ∃ v x, b.get? r.id = some v ∧ v.number? = some x ∧
      (b.answer q).2 = .number x := by
  obtain ⟨t, ht, hn⟩ := hf
  obtain ⟨v, hv, rfl⟩ := Option.map_eq_some_iff.1 ht
  obtain ⟨x, hx⟩ := Option.isSome_iff_exists.1 (Value.isSome_number?_iff.2 hn)
  have hr : b.readNumber r = .ok x := by simp [Blackboard.readNumber, hv, hx]
  refine ⟨v, x, hv, hx, ?_⟩
  cases q with
  | readNumber r' =>
    cases h
    simp [answer, Query.run, hr, Except.map]
  | readNumberField f =>
    cases f with
    | bound r' =>
      cases h
      simp [answer, Query.run, NumberField.read, hr, Except.map]
    | const _ | unbound _ => cases h
  | readField f => cases f <;> cases h
  | _ => cases h

/-- Nothing breaks where the reference that is used fits. -/
theorem answer_ne_broken (h : ∀ r, q.uses = some r → r.Fits b) (error : AccessError) :
    (b.answer q).2 ≠ .failed (.broken error) := by
  intro hb
  cases q with
  | edit e =>
    rw [answer_edit] at hb
    cases he : e.uses with
    | some r => simp [edit_of_uses he (h r he)] at hb
    | none =>
      cases e with
      | declare id v => cases hd : b.declare id v <;> simp [edit, Edit.attempt, hd] at hb
      | set id v => cases hd : b.set id v <;> simp [edit, Edit.attempt, hd] at hb
      | write _ _ | writeNumber _ _ => cases he
  | bind t id => cases hr : b.bind t id <;> simp [answer, Query.run, hr, Except.map] at hb
  | bindNumber id => cases hr : b.bindNumber id <;> simp [answer, Query.run, hr, Except.map] at hb
  | bindField f => cases hr : f.bind b <;> simp [answer, Query.run, hr, Except.map] at hb
  | bindNumberField f => cases hr : f.bind b <;> simp [answer, Query.run, hr, Except.map] at hb
  | read r =>
    obtain ⟨x, -, hx⟩ := answer_of_reads_typed (q := .read r) rfl (h (.typed r) rfl)
    simp [hx] at hb
  | readNumber r =>
    obtain ⟨v, x, -, -, hx⟩ := answer_of_reads_number (q := .readNumber r) rfl (h (.number r) rfl)
    simp [hx] at hb
  | readField f =>
    cases f with
    | bound r =>
      obtain ⟨x, -, hx⟩ := answer_of_reads_typed (q := .readField (.bound r)) rfl (h (.typed r) rfl)
      simp [hx] at hb
    | const _ | unbound _ => simp [answer, Query.run, Field.read, Except.map] at hb
  | readNumberField f =>
    cases f with
    | bound r =>
      obtain ⟨v, x, -, -, hx⟩ :=
        answer_of_reads_number (q := .readNumberField (.bound r)) rfl (h (.number r) rfl)
      simp [hx] at hb
    | const _ | unbound _ => simp [answer, Query.run, NumberField.read, Except.map] at hb

end Blackboard

/-! ## Many blackboards -/

/-- The blackboards of a host, by the numbers that it was given for them. -/
abbrev Boards := List Blackboard

inductive Request where
  | new
  | clone (source : Nat)
  | on (board : Nat) (q : Query)

namespace Boards

variable {bs : Boards} {n m : Nat} {q : Query} {r : Reference} {id : VariableId}

def perform (bs : Boards) : Request → Boards × Answer
  | .new => (bs ++ [default], .made bs.length)
  | .clone source =>
    match bs[source]? with
    | none => (bs, .absent)
    | some b => (bs ++ [b], .made bs.length)
  | .on n q =>
    match bs[n]? with
    | none => (bs, .absent)
    | some b => (bs.set n (b.answer q).1, (b.answer q).2)

/-- What was asked and answered, the last first. -/
abbrev History := List (Request × Answer)

/-- The reference was given out by the blackboard, or by one from before it was cloned. -/
inductive Held (r : Reference) : History → Nat → Prop
  | given {h : History} {n : Nat} {q : Query} {a : Answer} (hg : q.gives a = some r) :
      Held r ((.on n q, a) :: h) n
  | cloned {h : History} {source n : Nat} (hs : Held r h source) :
      Held r ((.clone source, .made n) :: h) n
  | later {h : History} {n : Nat} (x : Request × Answer) (hn : Held r h n) : Held r (x :: h) n

/-- What a request makes of the values last stored to a variable on each blackboard. -/
def recorded (id : VariableId) : Request × Answer → (Nat → Option Value) → Nat → Option Value
  | (.new, .made n), last => Function.update last n none
  | (.clone source, .made n), last => Function.update last n (last source)
  | (.on n (.edit e), .done), last =>
    if e.target = id then Function.update last n (some (e.value (last n))) else last
  | _, last => last

/-- The value that was last stored to a variable on each blackboard; a blackboard that was
cloned has those of its source from before. -/
def stored (id : VariableId) (h : History) : Nat → Option Value :=
  h.foldr (recorded id) fun _ => none

/-- The request uses a reference only on a blackboard on which it is held. -/
def Fair (h : History) : Request → Prop
  | .on n q => ∀ r, q.uses = some r → Held r h n
  | _ => True

/-- A history in which references are used only where they are held, and the blackboards that
it leaves. -/
inductive Honest : History → Boards → Prop
  | start : Honest [] []
  | perform {h : History} {bs : Boards} (x : Request) (hh : Honest h bs) (hx : Fair h x) :
      Honest ((x, (bs.perform x).2) :: h) (bs.perform x).1

/-- The blackboards are as the history tells, and every reference fits where it is held. -/
structure Coherent (h : History) (bs : Boards) : Prop where
  holds : ∀ {n b}, bs[n]? = some b → ∀ id, b.get? id = stored id h n
  fits : ∀ {r n}, Held r h n → ∃ b, bs[n]? = some b ∧ r.Fits b

theorem getElem?_snoc {b b' : Blackboard} (h : (bs ++ [b])[n]? = some b') :
    (n ≠ bs.length ∧ bs[n]? = some b') ∨ (n = bs.length ∧ b' = b) := by
  rw [List.getElem?_append] at h
  split at h
  next hlt => exact .inl ⟨Nat.ne_of_lt hlt, h⟩
  next hge =>
    obtain ⟨hn, hb⟩ := List.getElem?_eq_some_iff.1 h
    have hn : n - bs.length < 1 := hn
    refine .inr ⟨by omega, ?_⟩
    rw [← hb]
    simp

theorem getElem?_snoc_left {b : Blackboard} (h : bs[n]? = some b) (b' : Blackboard) :
    (bs ++ [b'])[n]? = some b :=
  (List.getElem?_append_left (List.getElem?_eq_some_iff.1 h).1).trans h

theorem gives_absent (q : Query) : q.gives .absent = none := by
  cases q with
  | bindField f => cases f <;> rfl
  | bindNumberField f => cases f <;> rfl
  | _ => rfl

theorem recorded_on_of_ne (h : m ≠ n) (q : Query) (a : Answer) (last : Nat → Option Value) :
    recorded id (.on n q, a) last m = last m := by
  cases q with
  | edit e =>
    cases a with
    | done =>
      simp only [recorded]
      split
      · exact Function.update_of_ne h _ _
      · rfl
    | _ => rfl
  | _ => rfl

/-- What is recorded of a request is what it does to the blackboard. -/
theorem get?_answer {b : Blackboard} {last : Nat → Option Value} (h : b.get? id = last n)
    (q : Query) :
    (b.answer q).1.get? id = recorded id (.on n q, (b.answer q).2) last n := by
  cases q with
  | edit e =>
    rw [Blackboard.answer_edit]
    cases hf : (b.edit e).2 with
    | some failure =>
      rw [Blackboard.edit_of_failure hf]
      exact h
    | none =>
      simp only [Option.elim, recorded]
      split
      next ht =>
        subst ht
        rw [Function.update_self, ← h]
        exact Blackboard.get?_edit_target hf
      next ht => rw [Blackboard.get?_edit_of_ne fun he => ht he.symm, h]
  | _ =>
    rw [Blackboard.fst_answer_eq]
    · exact h
    · exact nofun

namespace Coherent

variable {h : History} {b b' : Blackboard}

theorem start : Coherent [] [] := ⟨nofun, nofun⟩

/-- A request on a blackboard that there is not tells nothing. -/
theorem absent (hc : Coherent h bs) {x : Request} (hx : x ≠ .new) :
    Coherent ((x, .absent) :: h) bs := by
  refine ⟨fun hb id => ?_, fun hr => ?_⟩
  · cases x with
    | new => exact absurd rfl hx
    | clone source => exact hc.holds hb id
    | on n q => cases q <;> exact hc.holds hb id
  · cases hr with
    | given hg =>
      rw [gives_absent] at hg
      cases hg
    | later _ hn => exact hc.fits hn

theorem new (hc : Coherent h bs) : Coherent ((.new, .made bs.length) :: h) (bs ++ [default]) := by
  refine ⟨fun hb id => ?_, fun hr => ?_⟩
  · obtain ⟨hne, hb⟩ | ⟨rfl, rfl⟩ := getElem?_snoc hb
    · exact (hc.holds hb id).trans (Function.update_of_ne hne _ _).symm
    · exact (Function.update_self _ _ (stored id h)).symm
  · cases hr with
    | later _ hn =>
      obtain ⟨b, hb, hf⟩ := hc.fits hn
      exact ⟨b, getElem?_snoc_left hb _, hf⟩

/-- A clone holds what its source holds, and a reference fits it that fits its source. -/
theorem clone {source : Nat} (hc : Coherent h bs) (hs : bs[source]? = some b) :
    Coherent ((.clone source, .made bs.length) :: h) (bs ++ [b]) := by
  refine ⟨fun hb id => ?_, fun hr => ?_⟩
  · obtain ⟨hne, hb⟩ | ⟨rfl, rfl⟩ := getElem?_snoc hb
    · exact (hc.holds hb id).trans (Function.update_of_ne hne _ _).symm
    · exact (hc.holds hs id).trans (Function.update_self _ _ (stored id h)).symm
  · cases hr with
    | cloned hsource =>
      obtain ⟨b', hb', hf⟩ := hc.fits hsource
      obtain rfl : b = b' := Option.some.inj (hs.symm.trans hb')
      exact ⟨b, by simp, hf⟩
    | later _ hn =>
      obtain ⟨b, hb, hf⟩ := hc.fits hn
      exact ⟨b, getElem?_snoc_left hb _, hf⟩

/-- What the reference is used for keeps all the types, so whatever fitted goes on to fit. -/
theorem on (hc : Coherent h bs) (hb : bs[n]? = some b) (hu : ∀ r, q.uses = some r → r.Fits b) :
    Coherent ((.on n q, (b.answer q).2) :: h) (bs.set n (b.answer q).1) := by
  have hn : n < bs.length := (List.getElem?_eq_some_iff.1 hb).1
  have hk : b.Keeps (b.answer q).1 := Blackboard.keeps_answer hu
  refine ⟨fun {m b'} hm id => ?_, fun {r m} hr => ?_⟩
  · by_cases hmn : m = n
    · subst hmn
      rw [List.getElem?_set_self hn] at hm
      cases hm
      exact get?_answer (hc.holds hb id) q
    · rw [List.getElem?_set_ne (Ne.symm hmn)] at hm
      exact (hc.holds hm id).trans (recorded_on_of_ne hmn q _ _).symm
  · cases hr with
    | given hg =>
      exact ⟨_, List.getElem?_set_self hn, (Blackboard.fits_of_gives hg).keeps hk⟩
    | later _ hm =>
      obtain ⟨b', hb', hf⟩ := hc.fits hm
      by_cases hmn : m = n
      · subst hmn
        obtain rfl : b = b' := Option.some.inj (hb.symm.trans hb')
        exact ⟨_, List.getElem?_set_self hn, hf.keeps hk⟩
      · exact ⟨b', (List.getElem?_set_ne (Ne.symm hmn)).trans hb', hf⟩

/-- The reference of a fair request fits the blackboard of the request. -/
theorem fits_of_fair (hc : Coherent h bs) (hx : Fair h (.on n q)) (hb : bs[n]? = some b) :
    ∀ r, q.uses = some r → r.Fits b := by
  intro r hr
  obtain ⟨b', hb', hf⟩ := hc.fits (hx r hr)
  obtain rfl : b = b' := Option.some.inj (hb.symm.trans hb')
  exact hf

theorem perform (hc : Coherent h bs) {x : Request} (hx : Fair h x) :
    Coherent ((x, (bs.perform x).2) :: h) (bs.perform x).1 := by
  cases x with
  | new => exact hc.new
  | clone source =>
    simp only [Boards.perform]
    split
    · exact hc.absent nofun
    next b hs => exact hc.clone hs
  | on n q =>
    simp only [Boards.perform]
    split
    · exact hc.absent nofun
    next b hb => exact hc.on hb (hc.fits_of_fair hx hb)

end Coherent

theorem Honest.coherent {h : History} (hh : Honest h bs) : Coherent h bs := by
  induction hh with
  | start => exact .start
  | perform x _ hx ih => exact ih.perform hx

/-! ### What a request does -/

/-- What there is to know of a request that is made after the history. -/
structure Safe (h : History) (bs : Boards) (x : Request) : Prop where
  /-- It does not break. -/
  unbroken : ∀ error, (bs.perform x).2 ≠ .failed (.broken error)
  /-- What is stored through a reference is stored. -/
  stores : ∀ n e r, x = .on n (.edit e) → e.uses = some r → (bs.perform x).2 = .done
  /-- What is read through a typed reference was stored last. -/
  reads : ∀ (n : Nat) (q : Query) (t : ValueType) (r : VarRef t), x = .on n q →
    q.reads = some (.typed r) → ∃ y, stored r.id h n = some (Value.make t y) ∧
      (bs.perform x).2 = .value (Value.make t y)
  /-- What is read through a number reference is the number that was stored last. -/
  readsNumber : ∀ (n : Nat) (q : Query) (r : NumberRef), x = .on n q →
    q.reads = some (.number r) → ∃ v y, stored r.id h n = some v ∧ v.number? = some y ∧
      (bs.perform x).2 = .number y
  /-- No variable changes but the one that is stored to. -/
  frame : ∀ n b id, bs[n]? = some b → ∃ b', (bs.perform x).1[n]? = some b' ∧
    (b'.get? id = b.get? id ∨ ∃ e, x = .on n (.edit e) ∧ e.target = id)
  /-- Nothing changes if it fails. -/
  failed : ∀ failure, (bs.perform x).2 = .failed failure → (bs.perform x).1 = bs
  /-- Each variable holds what was stored to it last, this request counted. -/
  holds : ∀ n b id, (bs.perform x).1[n]? = some b →
    b.get? id = stored id ((x, (bs.perform x).2) :: h) n

theorem perform_on {b : Blackboard} (hb : bs[n]? = some b) (q : Query) :
    bs.perform (.on n q) = (bs.set n (b.answer q).1, (b.answer q).2) := by
  simp [perform, hb]

/-- A request that answers by a failure was made on one blackboard, and leaves all. -/
theorem fst_perform_of_failed {x : Request} {failure : Failure}
    (h : (bs.perform x).2 = .failed failure) : (bs.perform x).1 = bs := by
  cases x with
  | new => cases h
  | clone source =>
    simp only [perform] at h ⊢
    split at h <;> cases h
  | on n q =>
    cases hb : bs[n]? with
    | none => simp [perform, hb]
    | some b =>
      rw [perform_on hb] at h ⊢
      obtain ⟨hn, rfl⟩ := List.getElem?_eq_some_iff.1 hb
      simp [Blackboard.answer_of_failed h]

theorem getElem?_perform {x : Request} {b : Blackboard} (hb : bs[n]? = some b)
    (id : VariableId) : ∃ b', (bs.perform x).1[n]? = some b' ∧
      (b'.get? id = b.get? id ∨ ∃ e, x = .on n (.edit e) ∧ e.target = id) := by
  cases x with
  | new => exact ⟨b, getElem?_snoc_left hb _, .inl rfl⟩
  | clone source =>
    simp only [perform]
    split
    · exact ⟨b, hb, .inl rfl⟩
    · exact ⟨b, getElem?_snoc_left hb _, .inl rfl⟩
  | on m q =>
    by_cases hmn : m = n
    · subst hmn
      rw [perform_on hb]
      refine ⟨_, List.getElem?_set_self (List.getElem?_eq_some_iff.1 hb).1, ?_⟩
      cases q with
      | edit e =>
        rw [Blackboard.answer_edit]
        by_cases ht : e.target = id
        · exact .inr ⟨e, rfl, ht⟩
        · exact .inl (Blackboard.get?_edit_of_ne fun he => ht he.symm)
      | _ => exact .inl (congrArg (Blackboard.get? · id) (Blackboard.fst_answer_eq nofun))
    · simp only [perform]
      split
      · exact ⟨b, hb, .inl rfl⟩
      · exact ⟨b, (List.getElem?_set_ne hmn).trans hb, .inl rfl⟩

/-- Where a reference is used there is a blackboard, and it fits. -/
theorem Coherent.exists_fits {h : History} (hc : Coherent h bs) (hx : Fair h (.on n q))
    (hr : q.uses = some r) : ∃ b, bs[n]? = some b ∧ r.Fits b :=
  hc.fits (hx r hr)

theorem Coherent.ne_broken {h : History} {x : Request} (hc : Coherent h bs) (hx : Fair h x)
    (error : AccessError) : (bs.perform x).2 ≠ .failed (.broken error) := by
  cases x with
  | new => exact nofun
  | clone source =>
    simp only [Boards.perform]
    split <;> exact nofun
  | on n q =>
    cases hb : bs[n]? with
    | none => simp [Boards.perform, hb]
    | some b =>
      rw [perform_on hb]
      exact Blackboard.answer_ne_broken (hc.fits_of_fair hx hb) error

/-- After every history in which references are used only where they are held, a request that
does so too does not break: it reads what was stored last, it stores to its own variable
alone, and it changes nothing if it fails. -/
theorem Honest.safe {h : History} {x : Request} (hh : Honest h bs) (hx : Fair h x) :
    Safe h bs x := by
  have hc : Coherent h bs := hh.coherent
  refine ⟨hc.ne_broken hx, ?_, ?_, ?_, fun n b id hb => getElem?_perform hb id,
    fun failure => fst_perform_of_failed, fun n b id hb => (hc.perform hx).holds hb id⟩
  · rintro n e r rfl hr
    obtain ⟨b, hb, hf⟩ := hc.exists_fits hx hr
    rw [perform_on hb, Blackboard.answer_edit, Blackboard.edit_of_uses hr hf]
    rfl
  · rintro n q t r rfl hr
    obtain ⟨b, hb, hf⟩ := hc.exists_fits hx (Query.uses_of_reads hr)
    obtain ⟨y, hy, ha⟩ := Blackboard.answer_of_reads_typed hr hf
    exact ⟨y, (hc.holds hb r.id).symm.trans hy, by rw [perform_on hb]; exact ha⟩
  · rintro n q r rfl hr
    obtain ⟨b, hb, hf⟩ := hc.exists_fits hx (Query.uses_of_reads hr)
    obtain ⟨v, y, hv, hy, ha⟩ := Blackboard.answer_of_reads_number hr hf
    exact ⟨v, y, (hc.holds hb r.id).symm.trans hv, hy, by rw [perform_on hb]; exact ha⟩

/-- A variable is bound, its blackboard is cloned, and the clone's variable is set. -/
def copied : History :=
  [(.on 1 (.edit (.set ⟨1⟩ (.int 7))), .done), (.clone 0, .made 1),
    (.on 0 (.bind .int ⟨1⟩), .reference (.typed (⟨⟨1⟩⟩ : VarRef .int))),
    (.on 0 (.edit (.declare ⟨1⟩ (.int 5))), .done), (.new, .made 0)]

/-- The reference reads on the clone what was set there. -/
theorem safe_copied : ∃ bs, Honest copied bs ∧ Held (.typed (⟨⟨1⟩⟩ : VarRef .int)) copied 1 ∧
    (bs.perform (.on 1 (.read (⟨⟨1⟩⟩ : VarRef .int)))).2 = .value (.int 7) ∧
    Safe copied bs (.on 1 (.read (⟨⟨1⟩⟩ : VarRef .int))) := by
  have hh : Honest copied _ := .perform (.on 1 (.edit (.set ⟨1⟩ (.int 7)))) (.perform (.clone 0)
    (.perform (.on 0 (.bind .int ⟨1⟩)) (.perform (.on 0 (.edit (.declare ⟨1⟩ (.int 5))))
      (.perform .new .start trivial) nofun) nofun) trivial) nofun
  have hr : Held (.typed (⟨⟨1⟩⟩ : VarRef .int)) copied 1 := .later _ (.cloned (.given rfl))
  exact ⟨_, hh, hr, rfl, hh.safe fun r h => by cases h; exact hr⟩

end Boards

end BehaviorTree
