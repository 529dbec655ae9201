import SepiaLang.Token.Basic

/-!
# Problems in a program

What can be wrong with a list of tokens. Reading goes on after a problem, so a program may have
several.

* `Problem`: the causes.
* `Problem.message`: their wording.
-/

namespace SepiaLang

/-- Something wrong with a list of tokens: another kind of token was needed in the place of `found`,
no expression starts with a token of the kind, a number cannot be read or is too large, the block
that `opening` opens has no end, or expressions are nested too deeply. -/
inductive Problem where
  | expected (wanted : Kind) (found : Token)
  | noExpression (kind : Kind)
  | badInteger (literal : String)
  | openBlock (opening : Token)
  | tooDeep
  deriving DecidableEq, Repr

/-- The wording of a problem. -/
def Problem.message : Problem → String
  | expected wanted found =>
    "expected next token to be " ++ wanted.name ++ ", got " ++ found.kind.name ++
      " instead (line " ++ toString found.line ++ ", column " ++ toString found.column ++ ")"
  | noExpression kind => "no prefix parse function for " ++ kind.name ++ " found"
  | badInteger literal => "could not parse \"" ++ literal ++ "\" as integer"
  | openBlock opening =>
    "unterminated block opened at line " ++ toString opening.line ++ ", column " ++
      toString opening.column
  | tooDeep => "maximum nesting depth exceeded"

/-- The problem is a block without an end. -/
def Problem.isOpenBlock : Problem → Bool
  | openBlock _ => true
  | _ => false

end SepiaLang
