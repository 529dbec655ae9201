import SepiaLang.Token.Basic

/-!
# Traces of reading

A record of how a program was read: when each phrase was begun and when it was left, indented by the
phrases that were open at the time.

* `Phrase`: what is recorded.
* `TraceLine.render`: a line of the record.
-/

namespace SepiaLang

/-- The phrases that a trace records. -/
inductive Phrase where
  | valueStatement
  | updateStatement
  | returnStatement
  | expressionStatement
  | blockStatement
  | expression
  | unary
  | binary
  | conditional
  | function
  | call
  | index
  deriving DecidableEq, Repr

/-- The name of a phrase in a trace. -/
def Phrase.name : Phrase → String
  | valueStatement => "parse_value_statement"
  | updateStatement => "parse_update_statement"
  | returnStatement => "parse_return_statement"
  | expressionStatement => "parse_expression_statement"
  | blockStatement => "parse_block_statement"
  | expression => "parse_expression"
  | unary => "parse_prefix_expression"
  | binary => "parse_infix_expression"
  | conditional => "parse_if_expression"
  | function => "parse_function_literal"
  | call => "parse_call_expression"
  | index => "parse_index_expression"

/-- An entry of a trace, with the number of phrases open around it: a phrase was begun on the token
`first`, or it was left, whether it was read to its end or not. -/
inductive TraceLine where
  | enter (depth : Nat) (phrase : Phrase) (first : Token)
  | leave (depth : Nat) (phrase : Phrase)
  deriving DecidableEq, Repr

/-- Two spaces for every open phrase. -/
def indentation (depth : Nat) : String := String.ofList (List.replicate (2 * depth) ' ')

/-- The text of an entry. -/
def TraceLine.render : TraceLine → String
  | enter depth phrase first =>
    indentation depth ++ "BEGIN " ++ phrase.name ++ " at " ++ first.label
  | leave depth phrase => indentation depth ++ "END " ++ phrase.name

end SepiaLang
