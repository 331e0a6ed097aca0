import FuzzyMotion.Binary32

/-!
Angles, points and frames in the plane. Coordinates are metres; a pose turns counter-clockwise by an
angle in radians. Nothing in the library depends on how the three transcendental functions round: what
is proved holds for all functions in their place.
-/
namespace FuzzyMotion

/-- The transcendental functions that geometry needs. -/
class Trig where
  sin : Float32 → Float32
  cos : Float32 → Float32
  /-- The angle of the point whose second coordinate is given first. -/
  atan2 : Float32 → Float32 → Float32

/-- The functions of the platform. This is no instance: a program chooses it where it starts. -/
abbrev platformTrig : Trig where
  sin := Float32.sin
  cos := Float32.cos
  atan2 := Float32.atan2

namespace Angle

open Binary32 (pi tau remainder)

/-- The same direction, turned by whole turns into the interval from minus a half-turn, excluded,
to a half-turn, included. -/
def wrap (angle : Float32) : Float32 :=
  let rest := remainder angle tau
  if pi < rest then rest - tau
  else if rest ≤ -pi then rest + tau
  else rest

def toRadians (degrees : Float32) : Float32 :=
  degrees * pi / 180

def toDegrees (radians : Float32) : Float32 :=
  radians * 180 / pi

end Angle

structure Point where
  x : Float32
  y : Float32
  deriving Repr

structure Pose where
  x : Float32
  y : Float32
  /-- The heading, in radians. -/
  angle : Float32
  deriving Repr

/-- An object on the map. The direction of a door is the way through it. -/
structure Location where
  x : Float32
  y : Float32
  angle : Float32
  radius : Float32
  deriving Repr

namespace Location

def center (l : Location) : Point := ⟨l.x, l.y⟩

def pose (l : Location) : Pose := ⟨l.x, l.y, l.angle⟩

end Location

namespace Point

/-- The distance to the origin. -/
def norm (p : Point) : Float32 :=
  Binary32.sqrt (p.x * p.x + p.y * p.y)

/-- The direction from the origin in degrees, counter-clockwise from the first axis. -/
def bearing [Trig] (p : Point) : Float32 :=
  Angle.toDegrees (Trig.atan2 p.y p.x)

end Point

namespace Pose

def position (pose : Pose) : Point := ⟨pose.x, pose.y⟩

/-- A point given in the frame of the pose, in the frame around it. -/
def outward [Trig] (pose : Pose) (p : Point) : Point :=
  let c := Trig.cos pose.angle
  let s := Trig.sin pose.angle
  ⟨c * p.x - s * p.y + pose.x, s * p.x + c * p.y + pose.y⟩

/-- A point given in the frame around the pose, in the frame of the pose. -/
def inward [Trig] (pose : Pose) (p : Point) : Point :=
  let c := Trig.cos pose.angle
  let s := Trig.sin pose.angle
  let dx := p.x - pose.x
  let dy := p.y - pose.y
  ⟨c * dx + s * dy, c * dy - s * dx⟩

/-- The bearing in degrees and the distance of a point, as seen from the pose. -/
def polar [Trig] (pose : Pose) (p : Point) : Float32 × Float32 :=
  let q := pose.inward p
  (q.bearing, q.norm)

end Pose

end FuzzyMotion
