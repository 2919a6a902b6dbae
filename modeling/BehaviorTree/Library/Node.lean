/-
The nodes of the library together: composites, leaves, computations and services.
-/
import BehaviorTree.Library.Flow
import BehaviorTree.Library.Leaf
import BehaviorTree.Library.Computation
import BehaviorTree.Library.Background

namespace BehaviorTree

/-- A node of the library, with predicates of type `π` and actions of type `α`. -/
abbrev LibraryNode (π α : Type) := FlowNode ⊕ LeafNode π α ⊕ Computation ⊕ BackgroundNode

namespace LibraryNode

variable {π α : Type}

def flow (n : FlowNode) : LibraryNode π α := .inl n

def leaf (n : LeafNode π α) : LibraryNode π α := .inr (.inl n)

def computation (n : Computation) : LibraryNode π α := .inr (.inr (.inl n))

def background (n : BackgroundNode) : LibraryNode π α := .inr (.inr (.inr n))

end LibraryNode

end BehaviorTree
