import Shader.Lowering.Arithmetic

/-!
# Constructors

Values made of components. Arguments of another scalar type are converted first. One scalar fills a
vector, or the diagonal of a matrix; one longer vector is cut; otherwise the arguments are put
together in order.
-/

namespace Shader.Lower

/-- The argument converted to the target's scalar type, and whether the result is still a constant
if the argument is one. Literals are converted on the spot. -/
def constructArg (parts : Parts) (target : Option Scalar) (arg : Expr) : Lower (Id × Bool) := do
  match target, arg.ty.scalar? with
  | some wanted, some own =>
    if own = wanted then return (← parts.value arg, true)
    else
      match arg.node with
      | .literal value => return (← onModule (Module.declareLiteral (value.convert wanted)), true)
      | _ =>
        let converted : Ty := match arg.ty with
          | .vector _ n => .vector wanted n
          | _ => .scalar wanted
        let id ← parts.value arg
        return (← cast { ty := arg.ty, id } converted, false)
  | _, _ => return (← parts.value arg, true)

def constructArgs (parts : Parts) (target : Option Scalar) : List Expr → Lower (List Id × Bool)
  | [] => return ([], true)
  | arg :: args => do
    let (id, kept) ← constructArg parts target arg
    let (ids, allKept) ← constructArgs parts target args
    return (id :: ids, kept && allKept)

def constructScalar (ty : Ty) (args : List Expr) (ids : List Id) : Lower Id := do
  match args, ids with
  | [arg], [id] => if arg.ty.isScalar then return id else emit .CompositeExtract ty [id, 0]
  | _, _ => Build.refuse (.argCount (.constructor ty) 1 args.length)

/-- A vector of scalars and vectors in a row. Only scalars make a constant of it. -/
def joinVector (ty : Ty) (args : List Expr) (ids : List Id) (constant : Bool) : Lower Id :=
  composite ty ids (constant && args.all (·.ty.isScalar))

def constructVector (s : Scalar) (n : Word) (args : List Expr) (ids : List Id) (constant : Bool) :
    Lower Id := do
  match args, ids with
  | [arg], [id] =>
    match arg.ty with
    | .scalar _ => splat s id n constant
    | .vector _ m =>
      if m = n then return id
      else if n < m then emit .VectorShuffle (.vector s n) ([id, id] ++ (List.range n.toNat).map (·.toUInt32))
      else joinVector (.vector s n) args ids constant
    | _ => joinVector (.vector s n) args ids constant
  | _, _ => joinVector (.vector s n) args ids constant

/-- Identifiers in groups of `n`, the last one possibly shorter. -/
def groups {α : Type} (n : Nat) : Nat → List α → List (List α)
  | 0, _ => []
  | _, [] => []
  | count + 1, ids => ids.take n :: groups n count (ids.drop n)

def diagonalMatrix (s : Scalar) (columns rows : Word) (diagonal : Id) (constant : Bool) :
    Lower Id := do
  let zero ← onModule (Module.declareLiteral (Literal.zero s))
  let ids ← (List.range columns.toNat).mapM fun c =>
    composite (.vector s rows) ((List.range rows.toNat).map (fun r => if r = c then diagonal else zero)) constant
  composite (.matrix s columns rows) ids constant

/-- A matrix from several arguments: columns, or all components column by column. -/
def joinMatrix (s : Scalar) (columns rows : Word) (args : List Expr) (ids : List Id) (constant : Bool) : Lower Id := do
  let ty : Ty := .matrix s columns rows
  if args.all (·.ty = .vector s rows) then composite ty ids constant
  else
    let count ← Build.checked (Word.mul columns rows)
    if args.length = count.toNat && args.all (·.ty.isScalar) then
      let columnIds ← (groups rows.toNat ids.length ids).mapM fun group => composite (.vector s rows) group constant
      composite ty columnIds constant
    else Build.refuse (.unsupportedCast ((args.head?.map (·.ty)).getD .void) ty)

def constructMatrix (s : Scalar) (columns rows : Word) (args : List Expr) (ids : List Id)
    (constant : Bool) : Lower Id := do
  match args, ids with
  | [arg], [id] =>
    if arg.ty = .matrix s columns rows then return id
    else if arg.ty.isScalar then diagonalMatrix s columns rows id constant
    else joinMatrix s columns rows args ids constant
  | _, _ => joinMatrix s columns rows args ids constant

def assemble (ty : Ty) (args : List Expr) (ids : List Id) (constant : Bool) : Lower Id :=
  match ty with
  | .scalar _ => constructScalar ty args ids
  | .vector s n => constructVector s n args ids constant
  | .matrix s columns rows => constructMatrix s columns rows args ids constant
  | .array .. | .struct .. => composite ty ids constant
  | _ => Build.refuse (.typeMismatch .constructible ty)

/-- A value of type `ty` made of the arguments, which is a constant if `constant` says that they
are. -/
def construct (parts : Parts) (ty : Ty) (args : List Expr) (constant : Bool) : Lower Id := do
  let (ids, kept) ← constructArgs parts ty.scalar? args
  assemble ty args ids (constant && kept)

end Shader.Lower
