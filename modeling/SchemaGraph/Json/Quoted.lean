/-!
Quoted text. Writing escapes the quote, the backslash and the characters below the space. Reading
takes all escapes of JSON; a `\u` escape is a unit of sixteen bits, and the units have to make up
characters for the text to have a value.
-/

namespace SchemaGraph.Quoted

/-! ### Writing -/

def hexDigit (n : Nat) : Char :=
  if n < 10 then Char.ofNat ('0'.toNat + n) else Char.ofNat ('a'.toNat + n - 10)

/-- The text of one character between quotes. -/
def escape (c : Char) : List Char :=
  if c = '"' then ['\\', '"']
  else if c = '\\' then ['\\', '\\']
  else if c = '\x08' then ['\\', 'b']
  else if c = '\x0c' then ['\\', 'f']
  else if c = '\n' then ['\\', 'n']
  else if c = '\r' then ['\\', 'r']
  else if c = '\t' then ['\\', 't']
  else if c.toNat < 32 then
    ['\\', 'u', '0', '0', hexDigit (c.toNat / 16), hexDigit (c.toNat % 16)]
  else [c]

/-- The text between quotes. -/
def encode (text : List Char) : List Char := '"' :: (text.flatMap escape ++ ['"'])

/-! ### Reading -/

/-- A character as it stands or by its own escape, or a unit of sixteen bits. -/
inductive Piece where
  | char (c : Char)
  | unit (value : Nat)
deriving DecidableEq

def hexValue? (c : Char) : Option Nat :=
  if '0' ≤ c ∧ c ≤ '9' then some (c.toNat - '0'.toNat)
  else if 'a' ≤ c ∧ c ≤ 'f' then some (c.toNat - 'a'.toNat + 10)
  else if 'A' ≤ c ∧ c ≤ 'F' then some (c.toNat - 'A'.toNat + 10)
  else none

/-- The unit written with four hexadecimal digits. -/
def unit? (a b c d : Char) : Option Nat := do
  let a ← hexValue? a
  let b ← hexValue? b
  let c ← hexValue? c
  let d ← hexValue? d
  some (((a * 16 + b) * 16 + c) * 16 + d)

/-- The character that a backslash and a letter stand for. -/
def escaped? : Char → Option Char
  | '"' => some '"'
  | '\\' => some '\\'
  | '/' => some '/'
  | 'b' => some '\x08'
  | 'f' => some '\x0c'
  | 'n' => some '\n'
  | 'r' => some '\r'
  | 't' => some '\t'
  | _ => none

/-- The pieces up to the closing quote, and what follows it. -/
def pieces : List Char → Option (List Piece × List Char)
  | [] => none
  | '"' :: rest => some ([], rest)
  | '\\' :: 'u' :: a :: b :: c :: d :: rest => do
    let value ← unit? a b c d
    let (ps, rest) ← pieces rest
    some (.unit value :: ps, rest)
  | '\\' :: letter :: rest => do
    let c ← escaped? letter
    let (ps, rest) ← pieces rest
    some (.char c :: ps, rest)
  | c :: rest =>
    if c.toNat < 32 ∨ c = '\\' then none
    else do
      let (ps, rest) ← pieces rest
      some (.char c :: ps, rest)

/-- The first half of a character beyond sixteen bits. -/
def isHigh (unit : Nat) : Bool := 0xD800 ≤ unit && unit < 0xDC00

/-- The second half of a character beyond sixteen bits. -/
def isLow (unit : Nat) : Bool := 0xDC00 ≤ unit && unit < 0xE000

/-- The characters of the pieces; none if half a character stands alone. -/
def assemble : List Piece → Option (List Char)
  | [] => some []
  | .char c :: rest => (assemble rest).map (c :: ·)
  | .unit high :: .unit low :: rest =>
    if isHigh high then
      if isLow low then
        (assemble rest).map (Char.ofNat (0x10000 + (high - 0xD800) * 0x400 + (low - 0xDC00)) :: ·)
      else none
    else if isLow high then none
    else (assemble (.unit low :: rest)).map (Char.ofNat high :: ·)
  | .unit value :: rest =>
    if isHigh value || isLow value then none else (assemble rest).map (Char.ofNat value :: ·)

/-- The value of the text after an opening quote, and what follows its closing quote. -/
def read (text : List Char) : Option (Option String × List Char) := do
  let (ps, rest) ← pieces text
  some ((assemble ps).map String.ofList, rest)

theorem length_pieces_lt : ∀ {text : List Char} {ps : List Piece} {rest : List Char},
    pieces text = some (ps, rest) → rest.length < text.length := by
  intro text
  fun_induction pieces text with
  | case1 => simp
  | case2 rest => intro ps r h; simp at h; simp [← h.2]
  | case3 a b c d rest ih =>
    intro ps r h
    simp only [Option.bind_eq_bind, Option.bind_eq_some_iff] at h
    obtain ⟨_, _, ⟨qs, q⟩, hq, h⟩ := h
    simp only [Option.some.injEq, Prod.mk.injEq] at h
    have := ih hq
    simp only [List.length_cons] at *
    rw [← h.2]; omega
  | case4 letter rest _ ih =>
    intro ps r h
    simp only [Option.bind_eq_bind, Option.bind_eq_some_iff] at h
    obtain ⟨_, _, ⟨qs, q⟩, hq, h⟩ := h
    simp only [Option.some.injEq, Prod.mk.injEq] at h
    have := ih hq
    simp only [List.length_cons] at *
    rw [← h.2]; omega
  | case5 => simp
  | case6 c rest _ _ _ _ ih =>
    intro ps r h
    simp only [Option.bind_eq_bind, Option.bind_eq_some_iff] at h
    obtain ⟨⟨qs, q⟩, hq, h⟩ := h
    simp only [Option.some.injEq, Prod.mk.injEq] at h
    have := ih hq
    simp only [List.length_cons] at *
    rw [← h.2]; omega

theorem length_read_lt {text : List Char} {value : Option String} {rest : List Char}
    (h : read text = some (value, rest)) : rest.length < text.length := by
  simp only [read, Option.bind_eq_bind, Option.bind_eq_some_iff] at h
  obtain ⟨⟨ps, r⟩, hp, h⟩ := h
  simp only [Option.some.injEq, Prod.mk.injEq] at h
  exact h.2 ▸ length_pieces_lt hp

end SchemaGraph.Quoted
