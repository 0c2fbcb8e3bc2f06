import Remap.Expression.Parser
import Remap.Run.Eval

/-!
Other languages in place of expressions.  A query is an expression, an expression whose value counts
only as a best effort, or a fixed value.
-/

namespace Remap

inductive Query
  | expr (e : Expr)
  /-- Evaluates the expression and then fails recoverably with its value. -/
  | partialResult (e : Expr)
  | fixed (value : Value)

namespace Query

/-- Plain expressions. -/
def parseExpr : Parser Query := do
  return .expr (← Expr.parse)

/-- Expressions, those after a question mark as best efforts. -/
def parsePartial : Parser Query := fun text =>
  match text with
  | '?' :: rest => (do return .partialResult (← Expr.parse) : Parser Query) rest
  | _ => parseExpr text

/-- A question mark, which stands for the text `constant`. -/
def parseConstant : Parser Query := do
  Parser.keyword "?"
  return .fixed (.string "constant")

def eval (input : Input) (apply : Apply) : Query → State → Outcome QueryError Value
  | .expr e, state => e.eval input apply state
  | .partialResult e, state =>
      match e.eval input apply state with
      | (.ok value, state) =>
          (.error (.recoverable value (.thrown "partial result")), state)
      | (.error error, state) => (.error error, state)
  | .fixed value, state => (.ok value, state)

instance : Language Query where
  eval := eval

end Query

end Remap
