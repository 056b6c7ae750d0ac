/-!
# Terminals

The kinds of tokens. Three are classes of texts: names, integers, and paths. Every other terminal has one fixed text, a word or a
sign. `label` is the name by which a message or a tree refers to a terminal.
-/

namespace TuneLang

/-- The terminals of the grammar. -/
inductive Terminal where
  | name | int | path
  | assign | or | and | eq | ne | le | ge
  | bang | colon | comma | equal | less | more | lpar | rpar | lsqb | rsqb | minus | plus | star | slash | bar | semicolon
  | ifWord | thenWord | elseWord | letWord | letfunWord | inWord | endWord | showWord | writeWord | runWord | repeatWord
  | reverseWord
  deriving DecidableEq, Repr

/-- What a terminal is called in messages and trees. -/
def Terminal.label : Terminal → String
  | .name => "NAME"
  | .int => "INT"
  | .path => "UNIX_PATH_NOSPACE"
  | .assign => "__ANON_0"
  | .or => "__ANON_1"
  | .and => "__ANON_2"
  | .eq => "__ANON_3"
  | .ne => "__ANON_4"
  | .le => "__ANON_5"
  | .ge => "__ANON_6"
  | .bang => "BANG"
  | .colon => "COLON"
  | .comma => "COMMA"
  | .equal => "EQUAL"
  | .less => "LESSTHAN"
  | .more => "MORETHAN"
  | .lpar => "LPAR"
  | .rpar => "RPAR"
  | .lsqb => "LSQB"
  | .rsqb => "RSQB"
  | .minus => "MINUS"
  | .plus => "PLUS"
  | .star => "STAR"
  | .slash => "SLASH"
  | .bar => "VBAR"
  | .semicolon => "SEMICOLON"
  | .ifWord => "IF"
  | .thenWord => "THEN"
  | .elseWord => "ELSE"
  | .letWord => "LET"
  | .letfunWord => "LETFUN"
  | .inWord => "IN"
  | .endWord => "END"
  | .showWord => "SHOW"
  | .writeWord => "WRITE"
  | .runWord => "RUN"
  | .repeatWord => "REPEAT"
  | .reverseWord => "REVERSE"

/-- The text of a terminal that has only one; the three classes have none. -/
def Terminal.fixedText : Terminal → String
  | .name => ""
  | .int => ""
  | .path => ""
  | .assign => ":="
  | .or => "||"
  | .and => "&&"
  | .eq => "=="
  | .ne => "!="
  | .le => "<="
  | .ge => ">="
  | .bang => "!"
  | .colon => ":"
  | .comma => ","
  | .equal => "="
  | .less => "<"
  | .more => ">"
  | .lpar => "("
  | .rpar => ")"
  | .lsqb => "["
  | .rsqb => "]"
  | .minus => "-"
  | .plus => "+"
  | .star => "*"
  | .slash => "/"
  | .bar => "|"
  | .semicolon => ";"
  | .ifWord => "if"
  | .thenWord => "then"
  | .elseWord => "else"
  | .letWord => "let"
  | .letfunWord => "letfun"
  | .inWord => "in"
  | .endWord => "end"
  | .showWord => "show"
  | .writeWord => "write"
  | .runWord => "run"
  | .repeatWord => "repeat"
  | .reverseWord => "reverse"

/-- The words that are names wherever the grammar does not ask for them. -/
def Terminal.softWords : List Terminal := [.ifWord, .thenWord, .elseWord, .letWord, .letfunWord, .inWord, .endWord]

/-- The words that no name begins with. -/
def Terminal.hardWords : List Terminal := [.showWord, .writeWord, .runWord, .repeatWord, .reverseWord]

/-- The terminals with a fixed text, longer texts first, so that the first one that fits is the longest. -/
def Terminal.fixed : List Terminal :=
  [.reverseWord, .letfunWord, .repeatWord, .writeWord, .showWord, .thenWord, .elseWord, .letWord, .runWord, .endWord, .ifWord,
    .inWord, .assign, .or, .and, .eq, .ne, .le, .ge, .bang, .colon, .comma, .equal, .less, .more, .lpar, .rpar, .lsqb, .rsqb,
    .minus, .plus, .star, .slash, .bar, .semicolon]

/-- A terminal with its text in a source. -/
structure Token where
  terminal : Terminal
  text : String
  deriving DecidableEq, Repr

end TuneLang
