/-! # Tokens -/
namespace DualEngine

/-- A place in the source, counted in characters from 1. -/
structure Position where
  line : Nat := 1
  column : Nat := 1
deriving DecidableEq, Repr

namespace Position

/-- The place `width` characters further on the same line. -/
def advance (p : Position) (width : Nat) : Position := { p with column := p.column + width }

/-- The place after the character `c`; only the line feed starts a line. -/
def after (p : Position) (c : Char) : Position :=
  if c == '\n' then ⟨p.line + 1, 1⟩ else p.advance 1

end Position

inductive TokenType where
  | ifWord | elseWord | forWord | defWord | printWord | randomWord | trueWord | falseWord
  | leftParen | rightParen | leftBrace | rightBrace | leftBracket | rightBracket
  | comma | semicolon | star | slash
  | equal | notEqual | lessEqual | greaterEqual | plusPlus | minusMinus
  | assign | less | greater | plus | minus
  | string | number | float | identifier
deriving DecidableEq, Repr

namespace TokenType

def label : TokenType → String
  | .ifWord => "IF"
  | .elseWord => "ELSE"
  | .forWord => "FOR"
  | .defWord => "DEF"
  | .printWord => "PRINT"
  | .randomWord => "RANDOM"
  | .trueWord => "TRUE"
  | .falseWord => "FALSE"
  | .leftParen => "LPAREN"
  | .rightParen => "RPAREN"
  | .leftBrace => "LBRACE"
  | .rightBrace => "RBRACE"
  | .leftBracket => "LBRACKET"
  | .rightBracket => "RBRACKET"
  | .comma => "COMMA"
  | .semicolon => "SEMICOLON"
  | .star => "STAR"
  | .slash => "SLASH"
  | .equal => "EQEQ"
  | .notEqual => "NEQ"
  | .lessEqual => "LTE"
  | .greaterEqual => "GTE"
  | .plusPlus => "PLUSPLUS"
  | .minusMinus => "MINUSMINUS"
  | .assign => "EQ"
  | .less => "LT"
  | .greater => "GT"
  | .plus => "PLUS"
  | .minus => "MINUS"
  | .string => "STRING"
  | .number => "NUMBER"
  | .float => "FLOAT"
  | .identifier => "IDENTIFIER"

end TokenType

/-- A token with the place where it starts. The value of a string token is the text between the
quotes with its escapes resolved; that of any other token is its spelling. -/
structure Token where
  type : TokenType
  value : String
  position : Position
deriving DecidableEq, Repr

end DualEngine
