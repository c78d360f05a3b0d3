import Shader.Expr.Basic
import Shader.Instruction.Listing
import Shader.Ty.Notation

/-!
# What can go wrong while building

The reasons for which a declaration or a lowering is refused, and their texts. A refusal is the
caller's mistake, or a form that has no lowering. Word arithmetic that overflows stops the building
altogether.
-/

namespace Shader

inductive Callee where
  | function (name : String)
  | constructor (ty : Ty)
  | intrinsic (f : Intrinsic)
  | image (access : ImageAccess)
  | texture (access : TextureAccess)

def Callee.text : Callee → String
  | .function name => s!"call to `{name}`"
  | .constructor ty => s!"`{ty.text}` constructor"
  | .intrinsic f => Named.name f
  | .image access => Named.name access
  | .texture access => Named.name access

inductive Expectation where
  | numeric
  | function
  | constructible
  | struct
  | structWithMoreMembers
  | indexable
  | vector
  | matrix
  | image
deriving DecidableEq, Repr

def Expectation.text : Expectation → String
  | .numeric => "numeric scalar or vector"
  | .function => "function"
  | .constructible => "constructible type"
  | .struct => "struct"
  | .structWithMoreMembers => "struct with more members"
  | .indexable => "array, matrix or vector"
  | .vector => "vector"
  | .matrix => "matrix"
  | .image => "image"

inductive Operator where
  | unary (op : UnOp)
  | binary (op : BinOp)
deriving DecidableEq, Repr

def Operator.text : Operator → String
  | .unary op => Named.name op
  | .binary op => Named.name op

inductive BuildError where
  | notChainable (kind : Kind)
  | notAssignable (kind : Kind)
  | unknownVariable (name : String)
  | unknownId (id : Id)
  | noFunctionScope (name : String)
  | argCount (callee : Callee) (expected found : Nat)
  | typeMismatch (expected : Expectation) (found : Ty)
  | alreadyTerminated (label : Id)
  | notATerminator (op : Op)
  | unterminated (label : Id)
  | emptyFunction (name : String)
  | tooDeep (limit : Nat)
  | unsupportedCast (source target : Ty)
  | unsupportedOperator (op : Operator) (ty : Ty)
  | unsupportedIntrinsic (f : Intrinsic)

namespace BuildError

def message : BuildError → String
  | .notChainable kind => s!"{kind.text} cannot appear in an access chain"
  | .notAssignable kind => s!"{kind.text} is not assignable"
  | .unknownVariable name => s!"unknown variable `{name}`"
  | .unknownId id => s!"unknown variable `%{id}`"
  | .noFunctionScope name => s!"variable `{name}` needs Function storage, but there's no function being built"
  | .argCount callee expected found => s!"{callee.text} expects {expected} argument(s), found {found}"
  | .typeMismatch expected found => s!"type mismatch: expected {expected.text}, found `{found.text}`"
  | .alreadyTerminated label => s!"block %{label} already has a terminator"
  | .notATerminator op => s!"{op.mnemonic} is not a block terminator"
  | .unterminated label => s!"block %{label} has no terminator"
  | .emptyFunction name => s!"function `{name}` has no blocks"
  | .tooDeep limit => s!"expression nesting exceeds the limit of {limit}"
  | .unsupportedCast source target => s!"unsupported cast from `{source.text}` to `{target.text}`"
  | .unsupportedOperator op ty => s!"unsupported operator `{op.text}` on `{ty.text}`"
  | .unsupportedIntrinsic f => s!"unsupported intrinsic `{Named.name f}`"

/-- Whether the caller is at fault; otherwise the form has no lowering. -/
def isCallersFault : BuildError → Bool
  | .unsupportedCast .. | .unsupportedOperator .. | .unsupportedIntrinsic _ => false
  | _ => true

end BuildError

inductive Fault where
  | refused (error : BuildError)
  | overflow (operation : Overflow)

end Shader
