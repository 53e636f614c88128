/-!
# Item kinds

Storage holds items of one of eight fixed-width types, and messages may also hold objects, whose
width is not fixed. The order of the types is the order in which a peer announces them.

`PerKind` gathers one value for each of the eight types, such as the storage of each type or its
table of operators.
-/

namespace WireView

inductive ItemKind where
  | bool
  | int8
  | int16
  | int32
  | int64
  | float32
  | float64
  | char
  deriving DecidableEq

namespace ItemKind

def all : List ItemKind := [bool, int8, int16, int32, int64, float32, float64, char]

def width : ItemKind → Nat
  | bool | int8 => 1
  | int16 | char => 2
  | int32 | float32 => 4
  | int64 | float64 => 8

/-- The bits that tell the items of a type apart: all of its bytes, except for a truth value. -/
abbrev bits : ItemKind → Nat
  | bool => 1
  | int8 => 8
  | int16 => 16
  | int32 => 32
  | int64 => 64
  | float32 => 32
  | float64 => 64
  | char => 16

def name : ItemKind → String
  | bool => "bool"
  | int8 => "int8"
  | int16 => "int16"
  | int32 => "int32"
  | int64 => "int64"
  | float32 => "float32"
  | float64 => "float64"
  | char => "char"

/-- The capitalised name, used where a view describes itself. -/
def label : ItemKind → String
  | bool => "Bool"
  | int8 => "Int8"
  | int16 => "Int16"
  | int32 => "Int32"
  | int64 => "Int64"
  | float32 => "Float32"
  | float64 => "Float64"
  | char => "Char"

theorem width_pos (t : ItemKind) : 0 < t.width := by cases t <;> decide

theorem bits_le (t : ItemKind) : t.bits ≤ 8 * t.width := by cases t <;> decide

end ItemKind

/-- What a message may carry: items of a fixed width, or objects. -/
inductive Content where
  | items (type : ItemKind)
  | objects
  deriving DecidableEq

namespace Content

def all : List Content := ItemKind.all.map items ++ [objects]

def name : Content → String
  | items t => t.name
  | objects => "object"

def label : Content → String
  | items t => t.label
  | objects => "Object"

def width? : Content → Option Nat
  | items t => some t.width
  | objects => none

end Content

/-- One value of `F t` for every item type `t`. -/
structure PerKind (F : ItemKind → Type) where
  bool : F .bool
  int8 : F .int8
  int16 : F .int16
  int32 : F .int32
  int64 : F .int64
  float32 : F .float32
  float64 : F .float64
  char : F .char

namespace PerKind

variable {F : ItemKind → Type}

def tabulate (f : (t : ItemKind) → F t) : PerKind F :=
  ⟨f .bool, f .int8, f .int16, f .int32, f .int64, f .float32, f .float64, f .char⟩

def get (p : PerKind F) : (t : ItemKind) → F t
  | .bool => p.bool
  | .int8 => p.int8
  | .int16 => p.int16
  | .int32 => p.int32
  | .int64 => p.int64
  | .float32 => p.float32
  | .float64 => p.float64
  | .char => p.char

def set (p : PerKind F) : (t : ItemKind) → F t → PerKind F
  | .bool, x => { p with bool := x }
  | .int8, x => { p with int8 := x }
  | .int16, x => { p with int16 := x }
  | .int32, x => { p with int32 := x }
  | .int64, x => { p with int64 := x }
  | .float32, x => { p with float32 := x }
  | .float64, x => { p with float64 := x }
  | .char, x => { p with char := x }

@[simp] theorem get_tabulate (f : (t : ItemKind) → F t) (t : ItemKind) :
    (tabulate f).get t = f t := by
  cases t <;> rfl

@[simp] theorem get_set (p : PerKind F) (t : ItemKind) (x : F t) : (p.set t x).get t = x := by
  cases t <;> rfl

theorem get_set_of_ne (p : PerKind F) {t u : ItemKind} (x : F t) (h : u ≠ t) :
    (p.set t x).get u = p.get u := by
  cases t <;> cases u <;> simp_all [get, set]

end PerKind

end WireView
