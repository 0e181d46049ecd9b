import DotDoc.Label

set_option autoImplicit false

/-!
# Ports

A port says where on a node an edge ends: at a field of the node's record, at a
side of the node, at both, or at neither.

A record name is meant to be a text or a label. Anything else can be given too,
and is kept as it was given; the type of such foreign names is a parameter `ρ`
of the whole model. A foreign name can be looked at, but an end that bears one
cannot be written. The same holds for what is given in the place of a port.

Ports have an identity number. It tells apart ports that look alike; it decides
nothing about how they are written.
-/

namespace DotDoc

/-- The sides of a node. -/
inductive Compass where
  | n | ne | e | se | s | sw | w | nw | center
deriving DecidableEq

namespace Compass

/-- The sides in clockwise order from the top, the centre last. -/
def all : List Compass := [n, ne, e, se, s, sw, w, nw, center]

/-- How a side is written. -/
def code : Compass → String
  | n => "n"
  | ne => "ne"
  | e => "e"
  | se => "se"
  | s => "s"
  | sw => "sw"
  | w => "w"
  | nw => "nw"
  | center => "c"

/-- The name of a side. -/
def name : Compass → String
  | n => "N"
  | ne => "NE"
  | e => "E"
  | se => "SE"
  | s => "S"
  | sw => "SW"
  | w => "W"
  | nw => "NW"
  | center => "CENTER"

/-- The side that is written as the given text, in capital or small letters.
Only ASCII letters have these letters as their small form. -/
def ofCode? (text : String) : Option Compass :=
  all.find? fun c => c.code.toList == text.toList.map Char.toLower

/-- Every side is read back from its written form. -/
theorem ofCode?_code (c : Compass) : ofCode? c.code = some c := by
  cases c <;> decide

end Compass

/-- A field of a node's record, if any. -/
inductive RecordName (ρ : Type) where
  | absent
  | text (s : String)
  | label (l : Label)
  | foreign (v : ρ)

namespace RecordName

variable {ρ : Type}

def isAbsent : RecordName ρ → Bool
  | absent => true
  | _ => false

end RecordName

/-- Where on a node an edge ends. -/
structure Port (ρ : Type) where
  ident : Nat := 0
  record : RecordName ρ := .absent
  compass : Option Compass := none

namespace Port

variable {ρ : Type}

/-- The port that is meant if none is given. It names no place at all. -/
def nowhere : Port ρ := {}

/-- A port is empty if it names neither a field nor a side. -/
def isEmpty (p : Port ρ) : Bool := p.record.isAbsent && p.compass.isNone

end Port

/-- What is given for a port. -/
inductive Place (ρ : Type) where
  | port (p : Port ρ)
  | foreign (v : ρ)

end DotDoc
