import Std.Data.TreeMap

/-!
# Types of expressions

The types that variables are declared with. Words have a width of their own and may be signed,
unsigned or plain; the numbers have no fixed number of bits; a named type stands for the one that
a type table gives it. There a name may stand for another name; `TypeTable.follow` goes along such
a chain for a fixed number of steps, which ends it on chains that return to a name.

## Main definitions

* `Ty`: the types.
* `TypeTable.insert`, `TypeTable.lookup?`: the last entry of a name counts.
* `TypeTable.width`, `TypeTable.isSigned`, `TypeTable.isBool`: what a type is after following it.
-/

namespace BitUnroll

/-- The type of a variable or an expression. -/
inductive Ty where
  | bool
  | unsigned (width : Nat)
  | signed (width : Nat)
  | plain (width : Nat)
  | integer
  | natural
  | empty
  | named (name : String)
  deriving DecidableEq, Repr

namespace Ty

/-- The number of bits of a type that has a fixed one, and zero otherwise. -/
def ownWidth : Ty → Nat
  | .bool => 1
  | .unsigned width | .signed width | .plain width => width
  | .integer | .natural | .empty | .named _ => 0

/-- Whether words of a type are signed. -/
def ownSigned : Ty → Bool
  | .signed _ => true
  | _ => false

end Ty

/-! ## Named types -/

/-- The types that names stand for. -/
structure TypeTable where
  entries : Std.TreeMap String Ty := ∅

namespace TypeTable

/-- The table without names. -/
def empty : TypeTable := {}

/-- Lets a name stand for a type, whatever it stood for before. -/
def insert (table : TypeTable) (name : String) (ty : Ty) : TypeTable :=
  ⟨table.entries.insert name ty⟩

/-- The type that a name stands for. -/
def lookup? (table : TypeTable) (name : String) : Option Ty := table.entries[name]?

/-- The type that a name stands for, one step along its chain. Other types and unknown names
have no next step. -/
def next? (table : TypeTable) : Ty → Option Ty
  | .named name => table.lookup? name
  | _ => none

/-- The type at the end of a chain of at most `steps` steps. -/
def followFor (table : TypeTable) : Nat → Ty → Ty
  | 0, ty => ty
  | steps + 1, ty =>
    match table.next? ty with
    | some ty' => followFor table steps ty'
    | none => ty

/-- How many steps of a chain are followed. -/
def depth : Nat := 64

/-- The type that a type stands for. Unknown names stand for themselves. -/
def follow (table : TypeTable) (ty : Ty) : Ty := table.followFor depth ty

/-- The number of bits of a type, zero if it has no fixed one. -/
def width (table : TypeTable) (ty : Ty) : Nat := (table.follow ty).ownWidth

/-- Whether a type stands for signed words. -/
def isSigned (table : TypeTable) (ty : Ty) : Bool := (table.follow ty).ownSigned

/-- Whether a type stands for the truth values. -/
def isBool (table : TypeTable) (ty : Ty) : Bool := table.follow ty == .bool

@[simp] theorem lookup?_empty (name : String) : empty.lookup? name = none := by
  simp [empty, lookup?]

theorem lookup?_insert (table : TypeTable) (name other : String) (ty : Ty) :
    (table.insert name ty).lookup? other =
      if name = other then some ty else table.lookup? other := by
  simp [insert, lookup?, Std.TreeMap.getElem?_insert]

/-- A truth value has one bit. -/
theorem width_of_isBool {table : TypeTable} {ty : Ty} (h : table.isBool ty = true) :
    table.width ty = 1 := by
  simp only [isBool, beq_iff_eq] at h
  simp [width, h, Ty.ownWidth]

end TypeTable

end BitUnroll
