import SchemaGraph.Json.Quoted
import SchemaGraph.Number.Literal

/-!
The tokens of JSON text. Blanks between tokens are dropped. A word is a longest run of letters,
digits, signs and points; it has to be a keyword or a number.
-/

namespace SchemaGraph

/-- A token. A number that is infinite and a text with half a character have no value; whether that
matters is up to the reader. -/
inductive Token where
  | openList
  | closeList
  | openObject
  | closeObject
  | comma
  | colon
  | null
  | bool (value : Bool)
  | number (value : Option Number)
  | text (value : Option String)
deriving DecidableEq

namespace Token

def isBlank (c : Char) : Bool := c == ' ' || c == '\t' || c == '\n' || c == '\r'

def isWordChar (c : Char) : Bool := c.isAlphanum || c == '-' || c == '+' || c == '.'

def punctuation? : Char → Option Token
  | '[' => some .openList
  | ']' => some .closeList
  | '{' => some .openObject
  | '}' => some .closeObject
  | ',' => some .comma
  | ':' => some .colon
  | _ => none

/-- The keyword or number that a word spells. -/
def word? (word : List Char) : Option Token :=
  if word = ['n', 'u', 'l', 'l'] then some .null
  else if word = ['t', 'r', 'u', 'e'] then some (.bool true)
  else if word = ['f', 'a', 'l', 's', 'e'] then some (.bool false)
  else (Literal.ofChars? word).map fun l => .number l.number?

theorem length_dropWhile_le {α : Type} (p : α → Bool) (l : List α) :
    (l.dropWhile p).length ≤ l.length :=
  (List.dropWhile_suffix p).length_le

/-- The tokens of a text; none if some part of it is no token. -/
def ofChars? (text : List Char) : Option (List Token) :=
  match text with
  | [] => some []
  | c :: rest =>
    if isBlank c then ofChars? rest
    else if c = '"' then
      match _h : Quoted.read rest with
      | none => none
      | some (value, after) => (ofChars? after).map (.text value :: ·)
    else if isWordChar c then
      match word? (c :: rest.takeWhile isWordChar) with
      | none => none
      | some token => (ofChars? (rest.dropWhile isWordChar)).map (token :: ·)
    else
      match punctuation? c with
      | none => none
      | some token => (ofChars? rest).map (token :: ·)
termination_by text.length
decreasing_by
  · simp
  · exact Nat.lt_succ_of_lt (Quoted.length_read_lt _h)
  · exact Nat.lt_succ_of_le (length_dropWhile_le _ _)
  · simp

end Token

end SchemaGraph
