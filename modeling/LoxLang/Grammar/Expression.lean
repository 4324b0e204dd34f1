import LoxLang.Grammar.Cursor

/-! # Expressions in token lists

The binary operators bind in six levels, from `or` to `*` and `/`, each grouped to the left.
Below them stands assignment, which is grouped to the right, above them the signs, and at the top
calls and property accesses, which form chains. Readers that lead back to expressions are given
the number of nested expressions they may still go into. -/

namespace LoxLang
namespace Grammar

open Reader

/-- The operators that combine like a product. -/
def isFactorOp (k : Kind) : Bool := k = .slash ∨ k = .star

/-- The operators that combine like a sum. -/
def isTermOp (k : Kind) : Bool := k = .minus ∨ k = .plus

/-- The operators that compare sizes. -/
def isComparisonOp (k : Kind) : Bool :=
  k = .greater ∨ k = .greaterEqual ∨ k = .less ∨ k = .lessEqual

/-- The operators that ask for equality. -/
def isEqualityOp (k : Kind) : Bool := k = .bangEqual ∨ k = .equalEqual

/-- The operators that stand before their operand. -/
def isSign (k : Kind) : Bool := k = .bang ∨ k = .minus

/-- A product of operands. -/
def factor (operand : Reader (Expr Unit)) : Reader (Expr Unit) :=
  leftChain isFactorOp .binary operand

/-- A sum of products. -/
def term (operand : Reader (Expr Unit)) : Reader (Expr Unit) :=
  leftChain isTermOp .binary (factor operand)

/-- A comparison of sums. -/
def comparison (operand : Reader (Expr Unit)) : Reader (Expr Unit) :=
  leftChain isComparisonOp .binary (term operand)

/-- An equality of comparisons. -/
def equality (operand : Reader (Expr Unit)) : Reader (Expr Unit) :=
  leftChain isEqualityOp .binary (comparison operand)

/-- A conjunction of equalities. -/
def conjunction (operand : Reader (Expr Unit)) : Reader (Expr Unit) :=
  leftChain (· = .andWord) .logical (equality operand)

/-- A disjunction of conjunctions. -/
def disjunction (operand : Reader (Expr Unit)) : Reader (Expr Unit) :=
  leftChain (· = .orWord) .logical (conjunction operand)

/-- The operands of the binary operators, with an assignment to the first if an equals sign
follows. Only a name or a property can be assigned to; an assignment to anything else is an error,
and what it assigns is dropped. -/
def assignment (operand value : Reader (Expr Unit)) : Reader (Expr Unit) := do
  let target ← disjunction operand
  match ← accept? (· = .equal) with
  | none => return target
  | some equals =>
    let value ← value
    match target with
    | .nameRef ref => return .assign ref value
    | .get object name => return .set object name value
    | _ =>
      record .invalidTarget equals
      return target

/-- A reference without a label. -/
def reference (name : Token) : Ref Unit := ⟨(), name⟩

/-- An expression that begins no operator, given how to read the one in parentheses. -/
def primary (inner : Reader (Expr Unit)) : Reader (Expr Unit) := do
  let t ← peek
  match t.kind with
  | .falseWord =>
    skip
    return .literal (.bool false)
  | .trueWord =>
    skip
    return .literal (.bool true)
  | .nilWord =>
    skip
    return .literal .nil
  | .number | .text =>
    skip
    return .literal t.literal
  | .superWord =>
    skip
    let _ ← expect .dot .superDot
    return .superRef (reference t) (← expect .identifier .superMethodName)
  | .thisWord =>
    skip
    return .thisRef (reference t)
  | .identifier =>
    skip
    return .nameRef (reference t)
  | .leftParen =>
    skip
    let e ← inner
    let _ ← expect .rightParen .groupEnd
    return .group e
  | _ => fail .expression

/-- The arguments of a call, behind its opening parenthesis. -/
def arguments (argument : Reader (Expr Unit)) : Reader (List (Expr Unit)) := do
  if ← sees .rightParen then return [] else commaSeparated .tooManyArguments argument

/-- Calls of `callee`, accesses to its properties, and so on with what they yield. -/
def callChain (argument : Reader (Expr Unit)) : List Token → Expr Unit → Reader (Expr Unit)
  | [], _ => stop .outOfTokens
  | _ :: turns, callee => do
    if ← skipped .leftParen then
      let arguments ← arguments argument
      let paren ← expect .rightParen .argumentsEnd
      callChain argument turns (.call callee paren arguments)
    else if ← skipped .dot then
      let name ← expect .identifier .propertyName
      callChain argument turns (.get callee name)
    else
      return callee

/-- A primary expression with the calls and accesses behind it. -/
def call (inner : Reader (Expr Unit)) : Reader (Expr Unit) := do
  callChain inner (← upcoming) (← primary inner)

mutual

/-- An expression. -/
def expression : Nat → Reader (Expr Unit)
  | 0 => stop .tooDeep
  | depth + 1 => assignment (unary depth) (expression depth)

/-- An operand of a binary operator: signs, then a call. -/
def unary : Nat → Reader (Expr Unit)
  | 0 => stop .tooDeep
  | depth + 1 => do
    match ← accept? isSign with
    | some op => return .unary op (← unary depth)
    | none => call (expression depth)

end

end Grammar
end LoxLang
