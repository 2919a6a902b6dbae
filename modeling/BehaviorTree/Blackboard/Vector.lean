/-
Vectors of two and three single-precision numbers. Every operation rounds at
every step, in the order written.
-/

namespace BehaviorTree

structure Vec3 where
  x : Float32
  y : Float32
  z : Float32
deriving BEq, Repr, Inhabited

structure Vec2 where
  x : Float32
  y : Float32
deriving BEq, Repr, Inhabited

namespace Vec2

def zero : Vec2 := ⟨0, 0⟩

def length (v : Vec2) : Float32 := (v.x * v.x + v.y * v.y).sqrt

def extend (v : Vec2) (z : Float32) : Vec3 := ⟨v.x, v.y, z⟩

instance : Add Vec2 := ⟨fun v w => ⟨v.x + w.x, v.y + w.y⟩⟩
instance : Sub Vec2 := ⟨fun v w => ⟨v.x - w.x, v.y - w.y⟩⟩

def scale (v : Vec2) (k : Float32) : Vec2 := ⟨v.x * k, v.y * k⟩

end Vec2

namespace Vec3

def zero : Vec3 := ⟨0, 0, 0⟩

def length (v : Vec3) : Float32 := (v.x * v.x + v.y * v.y + v.z * v.z).sqrt

/-- Drop `z`. -/
def truncate (v : Vec3) : Vec2 := ⟨v.x, v.y⟩

instance : Add Vec3 := ⟨fun v w => ⟨v.x + w.x, v.y + w.y, v.z + w.z⟩⟩
instance : Sub Vec3 := ⟨fun v w => ⟨v.x - w.x, v.y - w.y, v.z - w.z⟩⟩

def scale (v : Vec3) (k : Float32) : Vec3 := ⟨v.x * k, v.y * k, v.z * k⟩

end Vec3

end BehaviorTree
