import FilterLex.Text.Quoted

/-!
# Token kinds and the fixed vocabulary

The closed list of kinds a token of the filter language can have, the three
families they fall into, and the two ways of naming one: by its name and by its
ordinal. Every kind is found again under the name and the ordinal it has.

The vocabulary gives reserved words and operators their kinds. A reserved word counts
only where it is a whole identifier; of two operators that begin alike the longer one is
taken.
-/

namespace FilterLex

/-- What a token is. The first three report on the lexer itself: an unclassified
run of characters, a problem, and the end of the input. Then come the literals,
the operators and the reserved words, in this order. -/
inductive Kind
  | unknown | error | eof
  | bool | int | float | string | ident
  | or | and | greater | less | equal | greaterEqual | lessEqual | bangEqual
  | comma | question | dot | minus
  | parenthesisLeft | parenthesisRight | bracketLeft | bracketRight
  | kwWhere | kwIn | kwLike | kwNot | kwNil
  deriving DecidableEq, Repr

namespace Kind

/-- Every kind, in the order that fixes the ordinals. -/
def all : List Kind :=
  [.unknown, .error, .eof,
   .bool, .int, .float, .string, .ident,
   .or, .and, .greater, .less, .equal, .greaterEqual, .lessEqual, .bangEqual,
   .comma, .question, .dot, .minus,
   .parenthesisLeft, .parenthesisRight, .bracketLeft, .bracketRight,
   .kwWhere, .kwIn, .kwLike, .kwNot, .kwNil]

def name : Kind → String
  | .unknown => "UNKNOWN"
  | .error => "ERROR"
  | .eof => "EOF"
  | .bool => "BOOL"
  | .int => "INT"
  | .float => "FLOAT"
  | .string => "STRING"
  | .ident => "IDENT"
  | .or => "OR"
  | .and => "AND"
  | .greater => "GREATER"
  | .less => "LESS"
  | .equal => "EQUAL"
  | .greaterEqual => "GREATER_EQUAL"
  | .lessEqual => "LESS_EQUAL"
  | .bangEqual => "BANG_EQUAL"
  | .comma => "COMMA"
  | .question => "QUESTION"
  | .dot => "DOT"
  | .minus => "MINUS"
  | .parenthesisLeft => "PARENTHESIS_LEFT"
  | .parenthesisRight => "PARENTHESIS_RIGHT"
  | .bracketLeft => "BRACKET_LEFT"
  | .bracketRight => "BRACKET_RIGHT"
  | .kwWhere => "WHERE"
  | .kwIn => "IN"
  | .kwLike => "LIKE"
  | .kwNot => "NOT"
  | .kwNil => "NIL"

/-- The name as it is shown to a reader: in lower case and without underscores. -/
def displayName (k : Kind) : String :=
  String.ofList ((k.name.toList.filter (· != '_')).map Char.toLower)

def ordinal (k : Kind) : Nat := all.idxOf k + 1

def isLiteral : Kind → Bool
  | .bool | .int | .float | .string | .ident => true
  | _ => false

def isOperator : Kind → Bool
  | .or | .and | .greater | .less | .equal | .greaterEqual | .lessEqual
  | .bangEqual | .comma | .question | .dot | .minus
  | .parenthesisLeft | .parenthesisRight | .bracketLeft | .bracketRight => true
  | _ => false

/-- Reserved words, apart from the two truth values, which are literals. -/
def isKeyword : Kind → Bool
  | .kwWhere | .kwIn | .kwLike | .kwNot | .kwNil => true
  | _ => false

def ofName? (name : String) : Option Kind :=
  all.find? (·.name == name)

def ofOrdinal? (n : Int) : Option Kind :=
  all.find? fun k => (k.ordinal : Int) == n

theorem mem_all (k : Kind) : k ∈ all := by
  cases k <;> decide

@[simp] theorem ofName?_name (k : Kind) : ofName? k.name = some k := by
  cases k <;> decide

@[simp] theorem ofOrdinal?_ordinal (k : Kind) : ofOrdinal? k.ordinal = some k := by
  cases k <;> decide

/-! ## Lookups that say what they looked for -/

inductive LookupError
  | noSuchName (name : String)
  | noSuchOrdinal (n : Int)
  deriving DecidableEq, Repr

def LookupError.message : LookupError → String
  | .noSuchName name => Text.Quoted.quote name
  | .noSuchOrdinal n => toString n ++ " is not a valid Kind"

def lookupName (name : String) : Except LookupError Kind :=
  match ofName? name with
  | some k => .ok k
  | none => .error (.noSuchName name)

def lookupOrdinal (n : Int) : Except LookupError Kind :=
  match ofOrdinal? n with
  | some k => .ok k
  | none => .error (.noSuchOrdinal n)

end Kind

/-! ## Vocabulary -/

namespace Vocabulary

def keywords : List (String × Kind) :=
  [("where", .kwWhere), ("nil", .kwNil), ("in", .kwIn), ("like", .kwLike),
   ("not", .kwNot), ("true", .bool), ("false", .bool)]

def operators : List (String × Kind) :=
  [("||", .or), ("&&", .and), (">", .greater), ("<", .less), ("=", .equal),
   (",", .comma), ("?", .question), ("!=", .bangEqual), (">=", .greaterEqual),
   ("<=", .lessEqual), ("(", .parenthesisLeft), (")", .parenthesisRight),
   ("[", .bracketLeft), ("]", .bracketRight), (".", .dot), ("-", .minus)]

/-- The characters that begin an operator, by code point. -/
def punctuation : List Char :=
  ['!', '&', '(', ')', ',', '-', '.', '<', '=', '>', '?', '[', ']', '|']

def keyword? (word : String) : Option Kind := keywords.lookup word

def operator? (lexeme : String) : Option Kind := operators.lookup lexeme

/-- The kind of an operator of two characters. -/
def pair? (pair : List Char) : Option Kind :=
  if pair.length = 2 then operator? (String.ofList pair) else none

end Vocabulary

end FilterLex
