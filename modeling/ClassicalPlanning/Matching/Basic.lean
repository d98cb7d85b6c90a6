/-
Matching patterns against facts.

A pattern is a literal of a schema, with free variables; it is matched against a ground
literal under a substitution, which grows by the objects that the free variables meet.
A bound variable of a pattern is a constant.  Heads are compared first, then the numbers
of arguments, then the arguments from left to right; of each argument first whether the
ground side is bound, then the types, then the objects, by name.
-/
import ClassicalPlanning.Matching.Substitution

namespace ClassicalPlanning

namespace Substitution

/-- Matches one argument of a pattern against its counterpart. -/
def matchArgument (σ : Substitution) (pattern ground : Variable) : Except Mismatch Substitution :=
  match ground.value with
  | none => .error (.unground ground.name)
  | some found =>
    if pattern.type = ground.type then
      match pattern.value.or (σ.get? pattern.name) with
      | none => .ok (σ.insert pattern.name found)
      | some bound =>
        if bound.name = found.name then .ok σ
        else .error (.conflict pattern.name bound.name found.name)
    else
      .error (.type pattern.name)

/-- Matches the arguments of a pattern against as many counterparts, from left to
right. -/
def matchArguments (σ : Substitution) : List Variable → List Variable → Except Mismatch Substitution
  | v :: vs, w :: ws => do (← σ.matchArgument v w).matchArguments vs ws
  | _, _ => .ok σ

/-- Matches a pattern against a literal, starting from what is bound already. -/
def matchLiteral (σ : Substitution) (pattern ground : Literal) : Except Mismatch Substitution :=
  if pattern.head ≠ ground.head then
    .error (.head pattern.head ground.head)
  else if pattern.arguments.length ≠ ground.arguments.length then
    .error (.arity pattern.arguments.length ground.arguments.length)
  else
    σ.matchArguments pattern.arguments ground.arguments

/-- Matches patterns against literals in step, as long as both last, starting from what
is bound already. -/
def matchLiterals (σ : Substitution) : List Literal → List Literal → Except Mismatch Substitution
  | p :: ps, l :: ls => do (← σ.matchLiteral p l).matchLiterals ps ls
  | _, _ => .ok σ

end Substitution

/-- The substitution that matches the pattern to the ground literal. -/
def Literal.unify (pattern ground : Literal) : Except Mismatch Substitution :=
  Substitution.matchLiteral ∅ pattern ground

/-- The substitution that matches each pattern to the literal that stands against it. -/
def unifyAll (patterns grounds : List Literal) : Except Mismatch Substitution :=
  Substitution.matchLiterals ∅ patterns grounds

end ClassicalPlanning
