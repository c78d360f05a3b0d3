import Shader.Error

/-!
# Access chains

A nest of member, element and lane selections on a variable, as a path: the outermost variable and
the steps from it inwards. Swizzles of swizzles are composed into one, and so is a literal index
into a swizzle, so that a path has at most one swizzle, at its end.
-/

namespace Shader

inductive Step where
  /-- A struct member; one that is a variable of its own has a name. -/
  | member (index : Word) (name : Option String)
  | index (index : Expr)
  | swizzle (swizzle : Swizzle)

structure Chain where
  head : Variable
  steps : List Step

namespace Chain

/-- The path of a variable: a member variable is a step from the variable that it is part of. -/
def ofVariable : Variable → Chain
  | .root name ty roles => ⟨.root name ty roles, []⟩
  | .member outer index name _ =>
    let path := ofVariable outer
    ⟨path.head, path.steps ++ [.member index (some name)]⟩

/-- The one swizzle that stands for `inner` and a step after it. -/
def afterSwizzle? (inner : Swizzle) : Step → Option Swizzle
  | .swizzle outer => outer.compose? inner
  | .index i => do
    let lane ← Swizzle.ofIndices? [← i.constantIndex?]
    lane.compose? inner
  | .member .. => none

/-- The path with one more step, which a swizzle at its end takes in. -/
def push (path : Chain) (step : Step) : Except BuildError Chain :=
  match path.steps.getLast? with
  | some (.swizzle inner) =>
    match afterSwizzle? inner step with
    | some composed => .ok ⟨path.head, path.steps.dropLast ++ [.swizzle composed]⟩
    | none => .error (.notChainable .swizzle)
  | _ => .ok ⟨path.head, path.steps ++ [step]⟩

def ofExpr : Expr → Except BuildError Chain
  | ⟨_, .ident v⟩ => .ok (ofVariable v)
  | ⟨_, .member outer index⟩ => do (← ofExpr outer).push (.member index none)
  | ⟨_, .index array index⟩ => do (← ofExpr array).push (.index index)
  | ⟨_, .swizzle outer swizzle⟩ => do (← ofExpr outer).push (.swizzle swizzle)
  | e => .error (.notChainable e.kind)

end Chain

end Shader
