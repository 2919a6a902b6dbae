/-
The graph: every node of one tree, filled from the bottom up.

A composite is added after its children, and adding it makes it their parent. What
does not hold together, a child that is not there yet or one that has a parent
already, is kept as a fault, and `validate` answers with the first one. A node may
also be attached to an owner as a service; then it runs on a stack of its own for as
long as the owner is on a stack.
-/
import BehaviorTree.Node.Contract

namespace BehaviorTree

/-- A node in its place, with what is known of it. -/
structure Slot (σ : Type) where
  name : String
  node : σ
  parent : Option NodeId := none
  /-- The node that this one is attached to as a service. -/
  owner : Option NodeId := none
  /-- The services attached to this node, in the order of attachment. -/
  services : List NodeId := []
  /-- Whether the node's variables are bound. -/
  bound : Bool := false
  /-- Counts the beginnings and the ends of executions; a token names one of its values. -/
  activation : Nat := 0
  /-- Who is to be told of a rollback, in the order in which they asked. -/
  observers : List Observer := []

structure Graph (σ : Type) where
  slots : Array (Slot σ) := #[]
  /-- What did not hold together, in the order in which it was found. -/
  faults : List GraphError := []

namespace Graph

variable {σ : Type}

instance : Inhabited (Graph σ) := ⟨{}⟩

def size (g : Graph σ) : Nat := g.slots.size

def isEmpty (g : Graph σ) : Bool := g.slots.isEmpty

def contains (g : Graph σ) (id : NodeId) : Bool := id.index < g.size

def slot? (g : Graph σ) (id : NodeId) : Option (Slot σ) := g.slots[id.index]?

def modify (g : Graph σ) (id : NodeId) (f : Slot σ → Slot σ) : Graph σ :=
  { g with slots := g.slots.modify id.index f }

@[simp] theorem size_modify (g : Graph σ) (id : NodeId) (f : Slot σ → Slot σ) :
    (g.modify id f).size = g.size := by
  simp [size, modify]

@[simp] theorem contains_modify (g : Graph σ) (id other : NodeId) (f : Slot σ → Slot σ) :
    (g.modify id f).contains other = g.contains other := by
  simp [contains]

theorem slot?_modify_self (g : Graph σ) (id : NodeId) (f : Slot σ → Slot σ) :
    (g.modify id f).slot? id = (g.slot? id).map f := by
  simp [slot?, modify, Array.getElem?_modify]

theorem slot?_modify_of_ne (g : Graph σ) {id other : NodeId} (h : other ≠ id)
    (f : Slot σ → Slot σ) : (g.modify id f).slot? other = g.slot? other := by
  have hi : id.index ≠ other.index := fun he => h (NodeId.ext he.symm)
  simp [slot?, modify, Array.getElem?_modify, hi]

theorem isSome_slot? (g : Graph σ) (id : NodeId) : (g.slot? id).isSome = g.contains id := by
  by_cases h : id.index < g.slots.size <;> simp [slot?, contains, size, h]

def name? (g : Graph σ) (id : NodeId) : Option String := (g.slot? id).map (·.name)

def parent? (g : Graph σ) (id : NodeId) : Option NodeId := (g.slot? id).bind (·.parent)

/-- The node that a service is attached to. -/
def owner? (g : Graph σ) (service : NodeId) : Option NodeId := (g.slot? service).bind (·.owner)

def servicesOf (g : Graph σ) (id : NodeId) : List NodeId :=
  match g.slot? id with
  | none => []
  | some slot => slot.services

/-- The first node of that name. -/
def find? (g : Graph σ) (name : String) : Option NodeId :=
  (g.slots.findIdx? (·.name = name)).map NodeId.mk

variable [Node σ]

def children (g : Graph σ) (id : NodeId) : List NodeId :=
  match g.slot? id with
  | none => []
  | some slot => Node.children slot.node

/-- Make `parent` the parent of `child`, or note why it cannot be. -/
def claim (parent : NodeId) (g : Graph σ) (child : NodeId) : Graph σ :=
  match g.slot? child with
  | none => { g with faults := g.faults ++ [.unknownChild parent child] }
  | some slot => match slot.parent with
    | some first => { g with faults := g.faults ++ [.multipleParents child first parent] }
    | none => g.modify child fun s => { s with parent := some parent }

/-- Add a node, and claim its children for it. -/
def add (g : Graph σ) (name : String) (node : σ) : Graph σ × NodeId :=
  let id : NodeId := ⟨g.size⟩
  let g := (Node.children node).foldl (claim id) g
  ({ g with slots := g.slots.push { name, node } }, id)

/-- Attach a service to its owner. -/
def attach (g : Graph σ) (owner service : NodeId) : Except GraphError (Graph σ) :=
  if !g.contains owner then .error (.unknownNode owner)
  else match g.slot? service with
    | none => .error (.unknownNode service)
    | some slot =>
      if !Node.isService slot.node then .error (.notAService service)
      else match slot.owner with
        | some existing => .error (.serviceAlreadyAttached service existing)
        | none =>
          .ok ((g.modify service fun s => { s with owner := some owner }).modify owner
            fun s => { s with services := s.services ++ [service] })

omit [Node σ] in
/-- Whether the graph holds together under `root`. -/
def validate (g : Graph σ) (root : NodeId) : Except GraphError Unit :=
  if !g.contains root then .error (.unknownRoot root)
  else match g.faults with
    | [] => .ok ()
    | fault :: _ => .error fault

end Graph

end BehaviorTree
