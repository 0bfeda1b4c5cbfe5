/-!
# Tokens

A token is its kind, the source text it stands for and the line it is on. String and number kinds
carry the value their text denotes.
-/

namespace Treewalk

/-- Punctuation and operators. -/
inductive Mark where
  | leftParen | rightParen | leftBrace | rightBrace
  | comma | dot | minus | plus | semicolon | slash | star
  | bang | bangEqual | equal | equalEqual
  | greater | greaterEqual | less | lessEqual
deriving DecidableEq, Repr

/-- Reserved words. -/
inductive Keyword where
  | and | «class» | else | false | fun | for | if | nil
  | or | print | return | super | this | true | var | while
deriving DecidableEq, Repr

namespace Mark

def all : List Mark :=
  [.leftParen, .rightParen, .leftBrace, .rightBrace, .comma, .dot, .minus, .plus, .semicolon,
    .slash, .star, .bang, .bangEqual, .equal, .equalEqual, .greater, .greaterEqual, .less,
    .lessEqual]

def spelling : Mark → String
  | leftParen => "(" | rightParen => ")" | leftBrace => "\x7b" | rightBrace => "\x7d"
  | comma => "," | dot => "." | minus => "-" | plus => "+" | semicolon => ";" | slash => "/"
  | star => "*" | bang => "!" | bangEqual => "!=" | equal => "=" | equalEqual => "=="
  | greater => ">" | greaterEqual => ">=" | less => "<" | lessEqual => "<="

def name : Mark → String
  | leftParen => "LEFT_PAREN" | rightParen => "RIGHT_PAREN"
  | leftBrace => "LEFT_BRACE" | rightBrace => "RIGHT_BRACE"
  | comma => "COMMA" | dot => "DOT" | minus => "MINUS" | plus => "PLUS"
  | semicolon => "SEMICOLON" | slash => "SLASH" | star => "STAR"
  | bang => "BANG" | bangEqual => "BANG_EQUAL" | equal => "EQUAL" | equalEqual => "EQUAL_EQUAL"
  | greater => "GREATER" | greaterEqual => "GREATER_EQUAL"
  | less => "LESS" | lessEqual => "LESS_EQUAL"

end Mark

namespace Keyword

def all : List Keyword :=
  [.and, .class, .else, .false, .fun, .for, .if, .nil, .or, .print, .return, .super, .this, .true,
    .var, .while]

def spelling : Keyword → String
  | .and => "and" | .class => "class" | .else => "else" | .false => "false"
  | .fun => "fun" | .for => "for" | .if => "if" | .nil => "nil"
  | .or => "or" | .print => "print" | .return => "return" | .super => "super"
  | .this => "this" | .true => "true" | .var => "var" | .while => "while"

def name (k : Keyword) : String :=
  k.spelling.toUpper

end Keyword

/-- The kinds of token. `eof` ends every scan. -/
inductive Kind where
  | mark (m : Mark)
  | keyword (k : Keyword)
  | identifier
  /-- The text between the quotes. -/
  | string (contents : String)
  | number (value : Float)
  | eof
deriving DecidableEq, Repr

namespace Kind

def name : Kind → String
  | mark m => m.name
  | keyword k => k.name
  | identifier => "IDENTIFIER"
  | string _ => "STRING"
  | number _ => "NUMBER"
  | eof => "EOF"

end Kind

structure Token where
  kind : Kind
  lexeme : String
  /-- Counted from 1. -/
  line : Nat
deriving DecidableEq, Repr

end Treewalk
