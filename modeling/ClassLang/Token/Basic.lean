import ClassLang.Double
import ClassLang.Span

namespace ClassLang

inductive Keyword
  | kClass | kInterface | kFn | kLoop | kWhile | kBreak | kReturn | kThis | kTrue | kFalse
      | kInt | kDouble
  | kBool | kModule | kUsing
deriving DecidableEq, Repr, Inhabited

namespace Keyword

def all : List Keyword :=
  [kClass, kInterface, kFn, kLoop, kWhile, kBreak, kReturn, kThis, kTrue, kFalse, kInt,
    kDouble, kBool,
    kModule, kUsing]

def text : Keyword → String
  | kClass => "class"
  | kInterface => "interface"
  | kFn => "fn"
  | kLoop => "loop"
  | kWhile => "while"
  | kBreak => "break"
  | kReturn => "return"
  | kThis => "this"
  | kTrue => "true"
  | kFalse => "false"
  | kInt => "int"
  | kDouble => "double"
  | kBool => "bool"
  | kModule => "module"
  | kUsing => "using"

end Keyword

inductive Symbol
  | plus | minus | star | slash | percent | eq | eqEq | notEq | lt | gt | ltEq | gtEq | shl
      | shr | andAnd
  | orOr | not | amp | pipe | caret | tilde | question | atSign | colonEq | plusEq
      | minusEq | starEq
  | slashEq | percentEq | ampEq | pipeEq | caretEq | shlEq | shrEq | lParen | rParen
      | lBrace | rBrace
  | lBracket | rBracket | comma | colon | colonColon | semi | dot
deriving DecidableEq, Repr, Inhabited

namespace Symbol

def all : List Symbol :=
  [plus, minus, star, slash, percent, eq, eqEq, notEq, lt, gt, ltEq, gtEq, shl, shr, andAnd,
    orOr, not, amp,
    pipe, caret, tilde, question, atSign, colonEq, plusEq, minusEq, starEq, slashEq,
      percentEq, ampEq,
    pipeEq, caretEq, shlEq, shrEq, lParen, rParen, lBrace, rBrace, lBracket, rBracket, comma, colon,
    colonColon, semi, dot]

def text : Symbol → String
  | plus => "+"
  | minus => "-"
  | star => "*"
  | slash => "/"
  | percent => "%"
  | eq => "="
  | eqEq => "=="
  | notEq => "!="
  | lt => "<"
  | gt => ">"
  | ltEq => "<="
  | gtEq => ">="
  | shl => "<<"
  | shr => ">>"
  | andAnd => "&&"
  | orOr => "||"
  | not => "!"
  | amp => "&"
  | pipe => "|"
  | caret => "^"
  | tilde => "~"
  | question => "?"
  | atSign => "@"
  | colonEq => ":="
  | plusEq => "+="
  | minusEq => "-="
  | starEq => "*="
  | slashEq => "/="
  | percentEq => "%="
  | ampEq => "&="
  | pipeEq => "|="
  | caretEq => "^="
  | shlEq => "<<="
  | shrEq => ">>="
  | lParen => "("
  | rParen => ")"
  | lBrace => "\x7b"
  | rBrace => "\x7d"
  | lBracket => "["
  | rBracket => "]"
  | comma => ","
  | colon => ":"
  | colonColon => "::"
  | semi => ";"
  | dot => "."

end Symbol

inductive Token
  | keyword (k : Keyword)
  | symbol (s : Symbol)
  | int (value : Int64)
  | double (value : Double)
  | ident (name : String)
  | eof
deriving DecidableEq, Repr, Inhabited

def Token.text : Token → String
  | .keyword k => k.text
  | .symbol s => s.text
  | .int v => toString v.toInt
  | .double v => v.text
  | .ident s => s
  | .eof => "EOF"

structure Lexeme where
  token : Token
  span : Span
deriving DecidableEq, Repr, Inhabited

end ClassLang
