import Shader.Word

/-!
# Enumerations of the standard

SPIR-V numbers the members of its enumerations and names them. An enumeration here is an inductive
type whose constructors have the standard's own spelling, with the list of all of them and the name
and number of each.
-/

namespace Shader

class Enumerated (α : Type) where
  all : List α
  entry : α → String × Word

namespace Enumerated

variable {α : Type} [Enumerated α]

def name (a : α) : String := (entry a).1

def number (a : α) : Word := (entry a).2

def ofName? (s : String) : Option α := all.find? (fun a => name a == s)

def ofNumber? (n : Word) : Option α := all.find? (fun a => number a == n)

end Enumerated

end Shader
