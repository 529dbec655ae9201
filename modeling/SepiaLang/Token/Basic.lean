import SepiaLang.Text.Quoted

/-!
# Tokens

The pieces that a source text is made of, each with the place where it starts. A token is told apart
from others by its kind. The scanner produces the named kinds only; a list of tokens that comes from
elsewhere may use names of its own.

* `Kind.name`: the name of a kind in messages. `Kind.ofName`: the kind with a given name.
* `Kind.ofWord`: the kind of a word, a keyword or a plain name.
* `Token`: a kind, the text of the piece, and its place.
* `Token.label`: how a token is named in a trace.
-/

namespace SepiaLang

/-- What a token is: `openBlock` is the arrow that opens a block, `closeBlock` the word that closes it,
and `other` a kind that no source text has. -/
inductive Kind where
  | illegal
  | eof
  | ident
  | int
  | string
  | assign
  | plus
  | minus
  | bang
  | asterisk
  | slash
  | lt
  | gt
  | ltEq
  | gtEq
  | eq
  | notEq
  | and
  | or
  | plusEq
  | minusEq
  | mulEq
  | slashEq
  | increment
  | decrement
  | comma
  | colon
  | semicolon
  | lparen
  | rparen
  | lbrace
  | rbrace
  | lbracket
  | rbracket
  | openBlock
  | closeBlock
  | valueWord
  | updateWord
  | returnWord
  | ifWord
  | elseWord
  | fnWord
  | trueWord
  | falseWord
  | other (name : String)
  deriving DecidableEq, Repr, Inhabited

namespace Kind

/-- The name of a kind in messages. -/
def name : Kind → String
  | illegal => "ILLEGAL"
  | eof => "EOF"
  | ident => "IDENT"
  | int => "INT"
  | string => "STRING"
  | assign => "ASSIGN"
  | plus => "PLUS"
  | minus => "MINUS"
  | bang => "BANG"
  | asterisk => "ASTERISK"
  | slash => "SLASH"
  | lt => "LT"
  | gt => "GT"
  | ltEq => "LTEQ"
  | gtEq => "GTEQ"
  | eq => "EQ"
  | notEq => "NOT_EQ"
  | and => "AND"
  | or => "OR"
  | plusEq => "PLUSEQ"
  | minusEq => "MINUSEQ"
  | mulEq => "MULEQ"
  | slashEq => "SLASHEQ"
  | increment => "INCREMENT"
  | decrement => "DECREMENT"
  | comma => "COMMA"
  | colon => "COLON"
  | semicolon => "SEMICOLON"
  | lparen => "LPAREN"
  | rparen => "RPAREN"
  | lbrace => "LBRACE"
  | rbrace => "RBRACE"
  | lbracket => "LBRACKET"
  | rbracket => "RBRACKET"
  | openBlock => "OPENBLOCK"
  | closeBlock => "CLOSEBLOCK"
  | valueWord => "VALUE"
  | updateWord => "UPDATE"
  | returnWord => "RETURN"
  | ifWord => "IF"
  | elseWord => "ELSE"
  | fnWord => "FUNCTION"
  | trueWord => "TRUE"
  | falseWord => "FALSE"
  | other name => name

/-- The kinds that a source text can have, and the end. -/
def named : List Kind :=
  [illegal, eof, ident, int, string, assign, plus, minus, bang, asterisk, slash, lt, gt, ltEq, gtEq,
   eq, notEq, and, or, plusEq, minusEq, mulEq, slashEq, increment, decrement, comma, colon,
   semicolon, lparen, rparen, lbrace, rbrace, lbracket, rbracket, openBlock, closeBlock, valueWord,
   updateWord, returnWord, ifWord, elseWord, fnWord, trueWord, falseWord]

/-- The kind with a given name. -/
def ofName (name : String) : Kind := (named.find? (·.name == name)).getD (other name)

/-- The words that no name may be. -/
def keywords : List (String × Kind) :=
  [("value", valueWord), ("update", updateWord), ("return", returnWord), ("if", ifWord),
   ("else", elseWord), ("fn", fnWord), ("true", trueWord), ("false", falseWord),
   ("end", closeBlock), ("and", and), ("or", or)]

/-- The kind of a word: that of the keyword, or `ident`. -/
def ofWord (word : String) : Kind := (keywords.lookup word).getD ident

end Kind

/-- A piece of source text. For a string, `literal` is what stands between the quotes. Scanning
counts lines and columns from one. A token that was not scanned may claim any place, and is at line
and column zero if it claims none. -/
structure Token where
  kind : Kind
  literal : String
  line : Int := 0
  column : Int := 0
  deriving DecidableEq, Repr, Inhabited

/-- The kind and the quoted text of a token. -/
def Token.label (t : Token) : String := t.kind.name ++ "(" ++ Text.quoted t.literal ++ ")"

end SepiaLang
