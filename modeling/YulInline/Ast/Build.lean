import YulInline.Ast.Basic

/-!
# Terse constructors

Trees without type tags, written briefly: names stand for untyped variables, and a numeral is a
number literal.
-/

namespace YulInline.Build

/-- Variables without type tags. -/
def untyped (names : List String) : List TypedName :=
  names.map fun name => ⟨name, ""⟩

/-- Variables given as pairs of a name and a type tag. -/
def typed (vars : List (String × String)) : List TypedName :=
  vars.map fun (name, type) => ⟨name, type⟩

/-- A number literal without type tag. -/
def numeral (value : String) : Literal :=
  ⟨.number, value, ""⟩

/-- A number as an expression. -/
def number (value : String) : Expr :=
  .literal (numeral value)

/-- A declaration of untyped variables. -/
def declare (names : List String) (value : Option Expr) : Stmt :=
  .declare (untyped names) value

/-- A declaration of typed variables. -/
def declareTyped (vars : List (String × String)) (value : Option Expr) : Stmt :=
  .declare (typed vars) value

/-- A function whose parameters and return variables are untyped. -/
def define (name : String) (params returns : List String) (body : Block) : Stmt :=
  .define ⟨name, untyped params, untyped returns, body⟩

/-- A function whose parameters and return variables are typed. -/
def defineTyped (name : String) (params returns : List (String × String)) (body : Block) : Stmt :=
  .define ⟨name, typed params, typed returns, body⟩

/-- The case of a `switch` that a number selects. -/
def caseOf (value : String) (body : Block) : Case :=
  ⟨some (numeral value), body⟩

/-- The default case of a `switch`. -/
def defaultCase (body : Block) : Case :=
  ⟨none, body⟩

end YulInline.Build
