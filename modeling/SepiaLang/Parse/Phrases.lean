import SepiaLang.Parse.State
import SepiaLang.Syntax.Basic
import SepiaLang.Text.Numeral
import SepiaLang.Word64

/-!
# Phrases

The readers of all phrases, each given a reader `sub` for the expressions inside it: `sub level`
reads an expression whose operators bind tighter than `level`. No phrase refers to another in a
circle; `expression` closes the circle, with a bound on how deeply expressions are nested.

* `bindingPower`: how tightly a token binds as an operator.
* `primary`: an expression up to its first operator.
* `climb`: the operators after it.
* `statement`, `block`: statements.
* `expression`: a whole expression.
-/

namespace SepiaLang.Parse

/-! ## Binding powers -/

/-- The level of a whole expression. -/
def lowest : Nat := 1

/-- The level of the operand of a sign or a negation. -/
def tight : Nat := 7

/-- How tightly a token binds the expressions on its two sides: comparisons for equality the least,
then logic, order, sums, products, and calls and subscripts the most. A token that is no operator
has the lowest level. -/
def bindingPower : Kind → Nat
  | .eq | .notEq => 2
  | .and | .or => 3
  | .lt | .gt | .ltEq | .gtEq => 4
  | .plus | .minus | .plusEq | .minusEq => 5
  | .asterisk | .slash | .mulEq | .slashEq => 6
  | .lparen | .lbracket => 8
  | _ => lowest

/-- A reader of expressions above a level. -/
abbrev Sub := Nat → Reader (Node Token)

/-! ## Lists -/

/-- The further names of a parameter list, each after a comma. -/
def moreParams : Nat → Reader (List (Ident Token))
  | 0 => pure []
  | n + 1 => do
    if (← ahead).kind = .comma then
      consume
      expect .ident
      let name ← current
      return { text := name.literal, note := name } :: (← moreParams n)
    else return []

/-- The parameters of a function, up to the closing parenthesis. -/
def params : Reader (List (Ident Token)) := do
  if (← ahead).kind = .rparen then
    consume
    return []
  else
    expect .ident
    let name ← current
    let more ← moreParams (← budget)
    expect .rparen
    return { text := name.literal, note := name } :: more

/-- The further expressions of a list, each after a comma. -/
def moreItems (sub : Sub) : Nat → Reader (List (Node Token))
  | 0 => pure []
  | n + 1 => do
    if (← ahead).kind = .comma then
      consume
      consume
      let item ← sub lowest
      return item :: (← moreItems sub n)
    else return []

/-- Expressions between commas, up to the token that closes the list. -/
def items (sub : Sub) (closing : Kind) : Reader (List (Node Token)) := do
  if (← ahead).kind = closing then
    consume
    return []
  else
    consume
    let item ← sub lowest
    let more ← moreItems sub (← budget)
    expect closing
    return item :: more

/-- The entries of a map literal. A comma may stand after the last one. -/
def entries (sub : Sub) : Nat → Reader (List (Node Token × Node Token))
  | 0 => pure []
  | n + 1 => do
    let next ← ahead
    if next.kind = .rbrace ∨ next.kind = .eof then return []
    else
      consume
      let key ← sub lowest
      expect .colon
      consume
      let value ← sub lowest
      if (← ahead).kind ≠ .rbrace then expect .comma
      return (key, value) :: (← entries sub n)

/-! ## Statements -/

/-- What follows the first word of a statement that binds a name: the name, the expression, and a
semicolon, which may be left out. -/
def binding (sub : Sub) : Reader (Ident Token × Node Token) := do
  expect .ident
  let name ← current
  expect .assign
  consume
  let value ← sub lowest
  skip .semicolon
  return ({ text := name.literal, note := name }, value)

/-- A statement that binds a new name. -/
def valueStatement (sub : Sub) : Reader (Node Token) := traced .valueStatement do
  let first ← current
  let (name, value) ← binding sub
  return .valueStmt first name value

/-- A statement that binds an old name anew. -/
def updateStatement (sub : Sub) : Reader (Node Token) := traced .updateStatement do
  let first ← current
  let (name, value) ← binding sub
  return .updateStmt first name value

/-- Passes over the tokens up to the next semicolon. It stops before the end of a block and of the
list. -/
def skipToSemicolon : Nat → Reader Unit
  | 0 => pure ()
  | n + 1 => do
    let here ← current
    let next ← ahead
    if here.kind = .semicolon ∨ here.kind = .eof ∨ next.kind = .eof ∨ next.kind = .closeBlock then
      pure ()
    else
      consume
      skipToSemicolon n

/-- A return statement. Everything up to the semicolon belongs to it, also after a problem. -/
def returnStatement (sub : Sub) : Reader (Node Token) := traced .returnStatement do
  let first ← current
  consume
  let value? ← attempt (sub lowest)
  skipToSemicolon (← budget)
  match value? with
  | some value => return .returnStmt first value
  | none => throw .rejected

/-- An expression as a statement, with a semicolon that may be left out. -/
def expressionStatement (sub : Sub) : Reader (Node Token) := traced .expressionStatement do
  let first ← current
  let expr? ← attempt (sub lowest)
  skip .semicolon
  match expr? with
  | some expr => return .expressionStmt first expr
  | none => throw .rejected

/-- A statement. Its first token tells which. -/
def statement (sub : Sub) : Reader (Node Token) := do
  match (← current).kind with
  | .valueWord => valueStatement sub
  | .updateWord => updateStatement sub
  | .returnWord => returnStatement sub
  | _ => expressionStatement sub

/-- The statements of a block, up to the word that closes it. Statements that were given up are left
out. -/
def statements (sub : Sub) : Nat → Reader (List (Node Token))
  | 0 => pure []
  | n + 1 => do
    let here ← current
    if here.kind = .closeBlock ∨ here.kind = .eof then return []
    else
      let found ← attempt (statement sub)
      consume
      return found.toList ++ (← statements sub n)

/-- A block, from the arrow that opens it to the word that closes it. -/
def block (sub : Sub) : Reader (Node Token) := traced .blockStatement do
  let opening ← current
  consume
  let body ← statements sub (← budget)
  if (← current).kind = .eof then report (.openBlock opening)
  return .block opening body

/-! ## Expressions -/

/-- A number, which must fit into a word. -/
def integer : Reader (Node Token) := do
  let t ← current
  match Text.readInt t.literal with
  | .ok n => if n ≤ Word64.greatest then return .integer t n else reject (.badInteger t.literal)
  | .error _ => reject (.badInteger t.literal)

/-- An expression in parentheses, which leave no mark in the tree. -/
def grouped (sub : Sub) : Reader (Node Token) := do
  consume
  let expr ← sub lowest
  expect .rparen
  return expr

/-- An operator before its operand. -/
def unary (sub : Sub) : Reader (Node Token) := traced .unary do
  let first ← current
  consume
  let operand ← sub tight
  return .unary first first.literal operand

/-- The `else` branch of a choice, if there is one. -/
def alternative (sub : Sub) : Reader (Node Token) := do
  if (← ahead).kind = .elseWord then
    consume
    expect .openBlock
    block sub
  else return .absent

/-- A choice. -/
def conditional (sub : Sub) : Reader (Node Token) := traced .conditional do
  let first ← current
  expect .lparen
  consume
  let condition ← sub lowest
  expect .rparen
  expect .openBlock
  let consequence ← block sub
  let otherwise ← alternative sub
  return .conditional first condition consequence otherwise

/-- A function. -/
def function (sub : Sub) : Reader (Node Token) := traced .function do
  let first ← current
  expect .lparen
  let ps ← params
  expect .openBlock
  let body ← block sub
  return .function first ps body

/-- An array. -/
def array (sub : Sub) : Reader (Node Token) := do
  let first ← current
  let elements ← items sub .rbracket
  return .array first elements

/-- A map. -/
def map (sub : Sub) : Reader (Node Token) := do
  let first ← current
  let pairs ← entries sub (← budget)
  expect .rbrace
  return .map first pairs

/-- An expression up to its first operator. -/
def primary (sub : Sub) : Reader (Node Token) := do
  let t ← current
  match t.kind with
  | .ident => return .identifier t t.literal
  | .int => integer
  | .string => return .string t t.literal
  | .trueWord => return .boolean t true
  | .falseWord => return .boolean t false
  | .bang | .minus | .increment | .decrement => unary sub
  | .lparen => grouped sub
  | .lbracket => array sub
  | .lbrace => map sub
  | .ifWord => conditional sub
  | .fnWord => function sub
  | kind => reject (.noExpression kind)

/-- An operator after its left operand. -/
def binary (sub : Sub) (left : Node Token) : Reader (Node Token) := traced .binary do
  let operator ← current
  consume
  let right ← sub (bindingPower operator.kind)
  return .binary operator operator.literal left right

/-- A call. -/
def call (sub : Sub) (callee : Node Token) : Reader (Node Token) := traced .call do
  let opening ← current
  let args ← items sub .rparen
  return .call opening callee args

/-- A subscript. -/
def index (sub : Sub) (left : Node Token) : Reader (Node Token) := traced .index do
  let opening ← current
  consume
  let i ← sub lowest
  expect .rbracket
  return .index opening left i

/-- The operator on the current token, after its left operand. -/
def extend (sub : Sub) (left : Node Token) : Reader (Node Token) := do
  match (← current).kind with
  | .lparen => call sub left
  | .lbracket => index sub left
  | _ => binary sub left

/-- The operators after an expression, as long as they bind tighter than `level`. -/
def climb (sub : Sub) (level : Nat) : Nat → Node Token → Reader (Node Token)
  | 0, left => pure left
  | n + 1, left => do
    if level < bindingPower (← ahead).kind then
      consume
      let longer ← extend sub left
      climb sub level n longer
    else return left

/-- An expression whose operators bind tighter than a level, with at most so many expressions nested
in each other. -/
def expression : Nat → Sub
  | 0, _ => throw .tooDeep
  | depth + 1, level => traced .expression do
    let left ← primary (expression depth)
    climb (expression depth) level (← budget) left

end SepiaLang.Parse
