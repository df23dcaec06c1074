import Lox.Json.Basic

/-!
Tokens. A token that was scanned has its source text as lexeme; one that was loaded from a record may
have any data there, and any data as its literal.
-/

set_option autoImplicit false

namespace Lox

inductive Kind where
  | leftParen | rightParen | leftBrace | rightBrace
  | comma | dot | minus | plus | semicolon | slash | star
  | bang | bangEqual | equal | equalEqual | greater | greaterEqual | less | lessEqual
  | identifier | string | number
  | andWord | classWord | elseWord | falseWord | funWord | forWord | ifWord | nilWord
  | orWord | printWord | returnWord | superWord | thisWord | trueWord | varWord | whileWord
  | eof
  deriving DecidableEq, Repr, Inhabited

/-- The kinds with the names they have in records. -/
def Kind.names : List (Kind × String) :=
  [(.leftParen, "LEFT_PAREN"), (.rightParen, "RIGHT_PAREN"), (.leftBrace, "LEFT_BRACE"),
   (.rightBrace, "RIGHT_BRACE"), (.comma, "COMMA"), (.dot, "DOT"), (.minus, "MINUS"),
   (.plus, "PLUS"), (.semicolon, "SEMICOLON"), (.slash, "SLASH"), (.star, "STAR"),
   (.bang, "BANG"), (.bangEqual, "BANG_EQUAL"), (.equal, "EQUAL"), (.equalEqual, "EQUAL_EQUAL"),
   (.greater, "GREATER"), (.greaterEqual, "GREATER_EQUAL"), (.less, "LESS"),
   (.lessEqual, "LESS_EQUAL"), (.identifier, "IDENTIFIER"), (.string, "STRING"),
   (.number, "NUMBER"), (.andWord, "AND"), (.classWord, "CLASS"), (.elseWord, "ELSE"),
   (.falseWord, "FALSE"), (.funWord, "FUN"), (.forWord, "FOR"), (.ifWord, "IF"),
   (.nilWord, "NIL"), (.orWord, "OR"), (.printWord, "PRINT"), (.returnWord, "RETURN"),
   (.superWord, "SUPER"), (.thisWord, "THIS"), (.trueWord, "TRUE"), (.varWord, "VAR"),
   (.whileWord, "WHILE"), (.eof, "EOF")]

def Kind.name (k : Kind) : String := (Kind.names.lookup k).getD ""

def Kind.ofName? (s : String) : Option Kind :=
  (Kind.names.find? fun (_, name) => name = s).map (·.1)

/-- The words that are no identifiers. -/
def Kind.keywords : List (String × Kind) :=
  [("and", .andWord), ("class", .classWord), ("else", .elseWord), ("false", .falseWord),
   ("fun", .funWord), ("for", .forWord), ("if", .ifWord), ("nil", .nilWord), ("or", .orWord),
   ("print", .printWord), ("return", .returnWord), ("super", .superWord), ("this", .thisWord),
   ("true", .trueWord), ("var", .varWord), ("while", .whileWord)]

def Kind.ofWord (s : String) : Kind := (Kind.keywords.lookup s).getD .identifier

structure Token where
  kind : Kind
  lexeme : Json
  literal : Json
  line : Int
  deriving Repr, Inhabited

namespace Token

/-- The mark at the end of a token list. -/
def endAt (line : Int) : Token := ⟨.eof, .text "", .null, line⟩

def isEnd (t : Token) : Bool := t.kind = .eof

/-- The token in words: its kind, its quoted lexeme, its literal if it has one, and its line. -/
def described (t : Token) : String :=
  let literal := match t.literal with
    | .null => ""
    | j => ", " ++ j.inner
  "Token(" ++ t.kind.name ++ ", " ++ t.lexeme.inner ++ literal ++ ", line=" ++ toString t.line ++ ")"

end Token

/-- What a variable is called. Words are the rule; a loaded token can also bring a number or nothing,
and numbers that denote the same are one name. -/
inductive Name where
  | word (s : String)
  | numeral (n : Json.Numeral)
  | absent
  deriving DecidableEq

/-- The name that a lexeme gives. Lists and records give none. -/
def Name.ofJson? : Json → Option Name
  | .text s => some (.word s)
  | .null => some .absent
  | j => j.numeral?.map .numeral

def Name.shown : Name → String
  | .word s => s
  | .numeral (.whole i) => toString i
  | .numeral (.broken x) => Decimal.written x
  | .absent => "null"

def Token.name? (t : Token) : Option Name := Name.ofJson? t.lexeme

end Lox
