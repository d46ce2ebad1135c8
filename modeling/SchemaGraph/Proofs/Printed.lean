import SchemaGraph.Json.Printer
import SchemaGraph.Proofs.Encoding

/-!
Printed JSON reads back. Characters are escaped one by one, so quoted text is read piece by piece.
The printer puts a bracket, a comma or a colon behind each word, so a part can be read without what
stands behind it.

* `Quoted.read_encoded` — quoted text;
* `Json.Exact` — values whose numbers are integers of the range that literals have exactly;
* `Json.spells_render` — the text of a value spells its tokens, in any layout of blanks;
* `Written.readValue_tokens` — the tokens of a value are read as the value;
* `Settings.ofText?_pretty` — the text that settings are saved as.
-/

namespace SchemaGraph

/-! ### Quoted text -/

namespace Quoted

theorem hexValue?_hexDigit : ∀ n < 16, hexValue? (hexDigit n) = some n := by decide

def ownEscapes : List Char := ['"', '\\', '\x08', '\x0c', '\n', '\r', '\t']

/-- What a written character is read as. -/
def pieceOf (c : Char) : Piece :=
  if c ∉ ownEscapes ∧ c.toNat < 32 then .unit c.toNat else .char c

theorem escape_of_control {c : Char} (hown : c ∉ ownEscapes) (hc : c.toNat < 32) :
    escape c = ['\\', 'u', '0', '0', hexDigit (c.toNat / 16), hexDigit (c.toNat % 16)] := by
  simp only [ownEscapes, List.mem_cons, List.not_mem_nil, or_false, not_or] at hown
  simp [escape, hown, hc]

theorem escape_of_plain {c : Char} (hown : c ∉ ownEscapes) (hc : ¬ c.toNat < 32) :
    escape c = [c] := by
  simp only [ownEscapes, List.mem_cons, List.not_mem_nil, or_false, not_or] at hown
  simp [escape, hown, hc]

theorem pieces_escape (c : Char) (rest : List Char) :
    pieces (escape c ++ rest) = (pieces rest).map fun read => (pieceOf c :: read.1, read.2) := by
  by_cases hown : c ∈ ownEscapes
  · have hpiece : pieceOf c = .char c := if_neg fun h => h.1 hown
    rw [hpiece]
    simp only [ownEscapes, List.mem_cons, List.not_mem_nil, or_false] at hown
    rcases hown with rfl | rfl | rfl | rfl | rfl | rfl | rfl <;>
      cases h : pieces rest <;> simp [escape, pieces, escaped?, h]
  · by_cases hc : c.toNat < 32
    · have hunit :
          unit? '0' '0' (hexDigit (c.toNat / 16)) (hexDigit (c.toNat % 16)) = some c.toNat := by
        have hhigh := hexValue?_hexDigit (c.toNat / 16) (by omega)
        have hlow := hexValue?_hexDigit (c.toNat % 16) (by omega)
        have hzero : hexValue? '0' = some 0 := by decide
        simp only [unit?, hhigh, hlow, hzero, Option.bind_eq_bind, Option.bind_some,
          Option.some.injEq]
        omega
      rw [escape_of_control hown hc, pieceOf, if_pos ⟨hown, hc⟩]
      cases h : pieces rest <;> simp [pieces, hunit, h]
    · rw [escape_of_plain hown hc, pieceOf, if_neg fun h => hc h.2]
      simp only [ownEscapes, List.mem_cons, List.not_mem_nil, or_false, not_or] at hown
      cases h : pieces rest <;> simp [pieces, hown, hc, h]

theorem assemble_unit {value : Nat} (h : value < 0xD800) (ps : List Piece) :
    assemble (.unit value :: ps) = (assemble ps).map (Char.ofNat value :: ·) := by
  have hhigh : isHigh value = false := by simp [isHigh]; omega
  have hlow : isLow value = false := by simp [isLow]; omega
  cases ps with
  | nil => simp [assemble, hhigh, hlow]
  | cons p ps => cases p <;> simp [assemble, hhigh, hlow]

theorem assemble_pieceOf (text : List Char) : assemble (text.map pieceOf) = some text := by
  induction text with
  | nil => rfl
  | cons c text ih =>
    rw [List.map_cons, pieceOf]
    split
    · rename_i hc
      rw [assemble_unit (by omega), ih, Char.ofNat_toNat]
      rfl
    · rw [assemble, ih]
      rfl

theorem pieces_encoded (text rest : List Char) :
    pieces (text.flatMap escape ++ '"' :: rest) = some (text.map pieceOf, rest) := by
  induction text with
  | nil => rw [List.flatMap_nil, List.nil_append, pieces]; rfl
  | cons c text ih =>
    rw [List.flatMap_cons, List.append_assoc, pieces_escape, ih]
    rfl

/-- **Quoted text reads back**, with what follows it. -/
theorem read_encoded (text rest : List Char) :
    read (text.flatMap escape ++ '"' :: rest) = some (some (String.ofList text), rest) := by
  simp [read, pieces_encoded, assemble_pieceOf]

end Quoted

/-! ### Integers -/

namespace Literal

def digitValues (text : List Char) : List Nat := text.map fun c => c.toNat - '0'.toNat

theorem digit?_of_isDigit {c : Char} (h : c.isDigit) : digit? c = some (c.toNat - '0'.toNat) := by
  simp only [Char.isDigit, ge_iff_le, Bool.and_eq_true, decide_eq_true_eq] at h
  exact if_pos h

theorem digits_eq {text : List Char} (h : ∀ c ∈ text, c.isDigit) :
    digits text = (digitValues text, []) := by
  induction text with
  | nil => rfl
  | cons c text ih =>
    obtain ⟨hc, hrest⟩ := List.forall_mem_cons.1 h
    simp [digits, digit?_of_isDigit hc, ih hrest, digitValues]

theorem ofDigits_digitValues (text : List Char) :
    ofDigits (digitValues text) = Nat.ofDigitChars 10 text 0 := by
  rw [ofDigits, digitValues, List.foldl_map, Nat.ofDigitChars_eq_foldl]

/-- A number other than zero is written without a zero in front. -/
theorem head?_digitValues {n : Nat} (hn : n ≠ 0) :
    (digitValues (Nat.toDigits 10 n)).head? ≠ some 0 := by
  induction n using Nat.strongRecOn with
  | ind n ih =>
    by_cases hsmall : n < 10
    · have hvalue := Nat.toNat_digitChar_sub_48_of_lt_ten hsmall
      simpa [Nat.toDigits_of_lt_base hsmall, digitValues, hvalue] using hn
    · have hhead := ih (n / 10) (by omega) (by omega)
      rw [Nat.toDigits_of_base_le (by omega) (by omega), digitValues, List.map_append,
        List.head?_append_of_ne_nil _ (by simp)]
      exact hhead

theorem readWhole_toDigits (n : Nat) :
    readWhole (Nat.toDigits 10 n) = some (digitValues (Nat.toDigits 10 n), []) := by
  have hdigits := digits_eq fun c => Nat.isDigit_of_mem_toDigits (b := 10) (n := n) (c := c)
    (by omega) (by omega)
  have hne : digitValues (Nat.toDigits 10 n) ≠ [] := by simp [digitValues]
  rw [readWhole, hdigits]
  split
  · rename_i _ _ hnil
    exact absurd (congrArg Prod.fst hnil) hne
  · rename_i _ d ds rest hzero
    -- only the number zero begins with a zero, and it has no further digit
    have hvalues : digitValues (Nat.toDigits 10 n) = 0 :: d :: ds := congrArg Prod.fst hzero
    by_cases hn : n = 0
    · simp [hn, digitValues] at hvalues
    · exact absurd (by rw [hvalues]; rfl) (head?_digitValues hn)
  · rename_i ds rest _ _ hds
    rw [hds]

theorem ofChars?_toDigits (n : Nat) :
    ofChars? (Nat.toDigits 10 n) = some { whole := digitValues (Nat.toDigits 10 n) } := by
  cases hdigits : Nat.toDigits 10 n with
  | nil => exact absurd hdigits Nat.toDigits_ne_nil
  | cons c rest =>
    have hc : c.isDigit := Nat.isDigit_of_mem_toDigits (by omega) (by omega)
      (hdigits ▸ List.mem_cons_self)
    have hsign : c ≠ '-' := by
      rintro rfl
      cases hc
    have hwhole := readWhole_toDigits n
    rw [hdigits] at hwhole
    simp [ofChars?, hsign, hwhole, readFraction, readPower]

theorem ofChars?_neg_toDigits (n : Nat) :
    ofChars? ('-' :: Nat.toDigits 10 n) =
      some { negative := true, whole := digitValues (Nat.toDigits 10 n) } := by
  simp [ofChars?, readWhole_toDigits, readFraction, readPower]

end Literal

/-- The integers that a literal stands for exactly. -/
def Number.Exact : Number → Prop
  | .int value => value.toNat < Nat.pow 2 64 ∧ (-value).toNat ≤ Nat.pow 2 63
  | .float _ => False

namespace Literal

theorem number?_of_int? {l : Literal} {value : Int} (h : l.int? = some value) :
    l.number? = some (.int value) := by
  rw [number?, h]

theorem ofDigits_toDigits (n : Nat) : ofDigits (digitValues (Nat.toDigits 10 n)) = n := by
  rw [ofDigits_digitValues, Nat.ofDigitChars_ten_toDigits]

theorem int?_toDigits {n : Nat} (h : n < Nat.pow 2 64) :
    int? { whole := digitValues (Nat.toDigits 10 n) } = some (n : Int) := by
  rw [int?, if_neg (by simp), if_neg Bool.false_ne_true, ofDigits_toDigits]
  exact if_pos h

theorem int?_neg_toDigits {n : Nat} (hzero : n ≠ 0) (h : n ≤ Nat.pow 2 63) :
    int? { negative := true, whole := digitValues (Nat.toDigits 10 n) } = some (-n : Int) := by
  rw [int?, if_neg (by simp), if_pos rfl, ofDigits_toDigits]
  exact if_neg (not_or.2 ⟨hzero, Nat.not_lt.2 h⟩)

/-- **An exact integer reads back.** -/
theorem exists_literal {value : Int} (h : (Number.int value).Exact) :
    ∃ l, ofChars? (Json.renderNumber (.int value)) = some l ∧ l.number? = some (.int value) := by
  obtain ⟨hhigh, hlow⟩ := h
  rw [Json.renderNumber, Int.toString_eq_repr, Int.repr_eq_if]
  split
  · have hvalue : (value.toNat : Int) = value := Int.toNat_of_nonneg ‹_›
    rw [Nat.toList_repr]
    refine ⟨_, ofChars?_toDigits _, number?_of_int? ?_⟩
    rw [int?_toDigits hhigh, hvalue]
  · have hvalue : ((-value).toNat : Int) = -value := Int.toNat_of_nonneg (by omega)
    rw [String.toList_append, Nat.toList_repr]
    refine ⟨_, ofChars?_neg_toDigits _, number?_of_int? ?_⟩
    rw [int?_neg_toDigits (by omega) hlow, hvalue, Int.neg_neg]

end Literal

/-! ### Texts of tokens -/

namespace Token

/-- No word goes on in this text. -/
def EndsWord (rest : List Char) : Prop := ∀ c ∈ rest.head?, isWordChar c = false

/-- The text is that of the tokens, whatever stands behind it that does not go on with its last
word. -/
def Spells (text : List Char) (tokens : List Token) : Prop :=
  ∀ rest, EndsWord rest → ofChars? (text ++ rest) = (ofChars? rest).map (tokens ++ ·)

variable {text word gap before after : List Char} {tokens front back : List Token} {c : Char}
  {token : Token}

theorem not_isBlank (h : isWordChar c = true) : isBlank c = false := by
  rw [Bool.eq_false_iff]
  intro hblank
  simp only [isBlank, Bool.or_eq_true, beq_iff_eq] at hblank
  rcases hblank with ((rfl | rfl) | rfl) | rfl <;> cases h

theorem EndsWord.append (h : EndsWord before) (hafter : EndsWord after) :
    EndsWord (before ++ after) := by
  cases before with
  | nil => exact hafter
  | cons c before => exact h

theorem Spells.append (hbefore : Spells before front) (hafter : Spells after back)
    (hends : EndsWord after) : Spells (before ++ after) (front ++ back) := by
  intro rest hrest
  rw [List.append_assoc, hbefore _ (hends.append hrest), hafter rest hrest, Option.map_map]
  congr 1
  funext tokens
  simp

theorem ofChars?_blank (h : isBlank c = true) (rest : List Char) :
    ofChars? (c :: rest) = ofChars? rest := by
  rw [ofChars?, if_pos h]

theorem of_punctuation? (h : punctuation? c = some token) :
    isBlank c = false ∧ c ≠ '"' ∧ isWordChar c = false := by
  unfold punctuation? at h
  split at h
  case h_7 => cases h
  all_goals decide

theorem ofChars?_punctuation (h : punctuation? c = some token) (rest : List Char) :
    ofChars? (c :: rest) = (ofChars? rest).map (token :: ·) := by
  rw [ofChars?]
  simp [of_punctuation? h, h]

theorem endsWord_punctuation (h : punctuation? c = some token) : EndsWord (c :: text) := by
  intro d hd
  cases hd
  exact (of_punctuation? h).2.2

theorem endsWord_blanks (hgap : ∀ c ∈ gap, isBlank c = true) : EndsWord gap := by
  intro c hc
  have hblank := hgap c (List.mem_of_mem_head? hc)
  rw [Bool.eq_false_iff]
  exact fun hword => by rw [not_isBlank hword] at hblank; cases hblank

theorem spells_nil : Spells [] [] := by
  intro rest _
  rw [List.nil_append, Option.map_congr fun _ _ => List.nil_append _, Option.map_id']

theorem Spells.blanks (h : Spells text tokens) (hgap : ∀ c ∈ gap, isBlank c = true) :
    Spells (gap ++ text) tokens := by
  induction gap with
  | nil => exact h
  | cons c gap ih =>
    obtain ⟨hc, hrest⟩ := List.forall_mem_cons.1 hgap
    intro rest hends
    rw [List.cons_append, List.cons_append, ofChars?_blank hc]
    exact ih hrest rest hends

theorem Spells.punctuation (h : Spells text tokens) (hc : punctuation? c = some token) :
    Spells (c :: text) (token :: tokens) := by
  intro rest hrest
  rw [List.cons_append, ofChars?_punctuation hc, h rest hrest, Option.map_map]
  rfl

theorem spells_encode (text : List Char) :
    Spells (Quoted.encode text) [.text (some (String.ofList text))] := by
  intro rest _
  have hread := Quoted.read_encoded text rest
  have hblank : isBlank '"' = false := by decide
  have hquoted :
      Quoted.encode text ++ rest = '"' :: (text.flatMap Quoted.escape ++ '"' :: rest) := by
    simp [Quoted.encode]
  rw [hquoted, ofChars?]
  simp only [hblank, Bool.false_eq_true, if_false, if_true]
  split
  · rename_i hnone
    rw [hread] at hnone
    cases hnone
  · rename_i value after hsome
    rw [hread] at hsome
    cases hsome
    rfl

theorem spells_word (hword : word? word = some token) (hchars : word.all isWordChar = true)
    (hne : word ≠ []) : Spells word [token] := by
  intro rest hrest
  cases word with
  | nil => exact absurd rfl hne
  | cons c word =>
    obtain ⟨hc, hchars⟩ := List.forall_mem_cons.1 (List.all_eq_true.1 hchars)
    have hquote : c ≠ '"' := by
      rintro rfl
      cases hc
    have hends : rest.takeWhile isWordChar = [] ∧ rest.dropWhile isWordChar = rest := by
      cases rest with
      | nil => exact ⟨rfl, rfl⟩
      | cons next rest => simp [hrest next rfl]
    have htake : (word ++ rest).takeWhile isWordChar = word := by
      rw [List.takeWhile_append_of_pos hchars, hends.1, List.append_nil]
    have hdrop : (word ++ rest).dropWhile isWordChar = rest := by
      rw [List.dropWhile_append_of_pos hchars, hends.2]
    rw [List.cons_append, ofChars?]
    simp [not_isBlank hc, hquote, hc, htake, hdrop, hword]

/-- A text of tokens alone. -/
theorem Spells.ofChars?_eq (h : Spells text tokens) : ofChars? text = some tokens := by
  have hall := h [] (by simp [EndsWord])
  rw [List.append_nil, ofChars?] at hall
  simpa using hall

end Token

/-! ### The tokens of a value -/

namespace Json

mutual

/-- All numbers in the value are integers that a literal stands for exactly. -/
def Exact : Json → Prop
  | .number value => value.Exact
  | .list items => ExactItems items
  | .object fields => ExactFields fields
  | _ => True

def ExactItems : List Json → Prop
  | [] => True
  | item :: items => item.Exact ∧ ExactItems items

def ExactFields : List (String × Json) → Prop
  | [] => True
  | (_, value) :: fields => value.Exact ∧ ExactFields fields

end

/-- The tokens of parts with commas between them. -/
def commaSeparated : List (List Token) → List Token
  | [] => []
  | part :: parts => part ++ parts.flatMap (.comma :: ·)

mutual

def tokens : Json → List Token
  | .null => [.null]
  | .bool value => [.bool value]
  | .number value => [.number (some value)]
  | .text value => [.text (some value)]
  | .list items => .openList :: (commaSeparated (itemTokens items) ++ [.closeList])
  | .object fields => .openObject :: (commaSeparated (fieldTokens fields) ++ [.closeObject])

def itemTokens : List Json → List (List Token)
  | [] => []
  | item :: items => item.tokens :: itemTokens items

def fieldTokens : List (String × Json) → List (List Token)
  | [] => []
  | (name, value) :: fields => (.text (some name) :: .colon :: value.tokens) :: fieldTokens fields

end

/-- What a layout puts between tokens is blank. -/
structure Layout.Blank (layout : Layout) : Prop where
  lineBreak : ∀ depth, ∀ c ∈ layout.lineBreak depth, Token.isBlank c = true
  colon : ∃ gap, layout.colon = ':' :: gap ∧ ∀ c ∈ gap, Token.isBlank c = true

theorem Layout.blank_pretty : Layout.pretty.Blank where
  lineBreak depth c hc := by
    rcases List.mem_cons.1 hc with rfl | hc
    · rfl
    · rw [List.eq_of_mem_replicate hc]
      rfl
  colon := ⟨[' '], rfl, List.forall_mem_singleton.2 rfl⟩

variable {layout : Layout} {depth : Nat} {opening closing : Char} {first last : Token}

open Token (Spells EndsWord)

/-- Parts behind the first one, each after a comma, up to the closing bracket. -/
theorem spells_behind (hlayout : layout.Blank) (depth : Nat)
    (hclosing : Token.punctuation? closing = some last) {parts : List (List Char)}
    {spelled : List (List Token)} (h : List.Forall₂ Spells parts spelled) :
    Spells (parts.flatMap (fun part => ',' :: (layout.lineBreak (depth + 1) ++ part)) ++
        (layout.lineBreak depth ++ [closing])) (spelled.flatMap (.comma :: ·) ++ [last]) ∧
      EndsWord (parts.flatMap (fun part => ',' :: (layout.lineBreak (depth + 1) ++ part)) ++
        (layout.lineBreak depth ++ [closing])) := by
  induction h with
  | nil =>
    exact ⟨(Token.spells_nil.punctuation hclosing).blanks (hlayout.lineBreak depth),
      (Token.endsWord_blanks (hlayout.lineBreak depth)).append
        (Token.endsWord_punctuation hclosing)⟩
  | cons hpart _ ih =>
    have hcomma : Token.punctuation? ',' = some .comma := rfl
    refine ⟨?_, Token.endsWord_punctuation hcomma⟩
    have hrest := ((hpart.append ih.1 ih.2).blanks
      (hlayout.lineBreak (depth + 1))).punctuation hcomma
    simpa only [List.flatMap_cons, List.cons_append, List.append_assoc] using hrest

/-- A block spells its parts with commas between them. -/
theorem spells_block (hlayout : layout.Blank) (hopening : Token.punctuation? opening = some first)
    (hclosing : Token.punctuation? closing = some last) {parts : List (List Char)}
    {spelled : List (List Token)} (h : List.Forall₂ Spells parts spelled) :
    Spells (block layout depth opening closing parts)
      (first :: (commaSeparated spelled ++ [last])) := by
  cases h with
  | nil => exact (Token.spells_nil.punctuation hclosing).punctuation hopening
  | cons hpart hparts =>
    obtain ⟨hbehind, hends⟩ := spells_behind hlayout depth hclosing hparts
    have hall := ((hpart.append hbehind hends).blanks (hlayout.lineBreak (depth + 1))).punctuation
      hopening
    simpa only [block, commaSeparated, List.cons_append, List.append_assoc] using hall

theorem isWordChar_renderNumber (value : Int) :
    (renderNumber (.int value)).all Token.isWordChar = true := by
  have hdigits : ∀ n : Nat, ∀ c ∈ Nat.toDigits 10 n, Token.isWordChar c = true := by
    intro n c hc
    have hdigit := Nat.isDigit_of_mem_toDigits (by omega) (by omega) hc
    simp [Token.isWordChar, Char.isAlphanum, hdigit]
  rw [List.all_eq_true, renderNumber, Int.toString_eq_repr, Int.repr_eq_if]
  split
  · rw [Nat.toList_repr]
    exact hdigits _
  · rw [String.toList_append, Nat.toList_repr]
    exact List.forall_mem_cons.2 ⟨rfl, hdigits _⟩

/-- The digits and the sign of an integer make up a word. -/
theorem spells_renderNumber {value : Number} (h : value.Exact) :
    Spells (renderNumber value) [.number (some value)] := by
  cases value with
  | float => exact h.elim
  | int value =>
    obtain ⟨l, hl, hvalue⟩ := Literal.exists_literal h
    refine Token.spells_word ?_ (isWordChar_renderNumber value) ?_
    · have hkeyword : ∀ word, Literal.ofChars? word = none → renderNumber (.int value) ≠ word := by
        rintro word hnone rfl
        rw [hl] at hnone
        cases hnone
      rw [Token.word?, if_neg (hkeyword _ rfl), if_neg (hkeyword _ rfl), if_neg (hkeyword _ rfl),
        hl, Option.map_some, hvalue]
    · intro hnil
      rw [hnil] at hl
      cases hl

mutual

/-- **The text of a value spells its tokens.** -/
theorem spells_render (hlayout : layout.Blank) : ∀ (value : Json) (depth : Nat), value.Exact →
    Spells (value.render layout depth) value.tokens
  | .null, _, _ => show Spells ['n', 'u', 'l', 'l'] _ from
    Token.spells_word rfl rfl (List.cons_ne_nil _ _)
  | .bool true, _, _ => show Spells ['t', 'r', 'u', 'e'] _ from
    Token.spells_word rfl rfl (List.cons_ne_nil _ _)
  | .bool false, _, _ => show Spells ['f', 'a', 'l', 's', 'e'] _ from
    Token.spells_word rfl rfl (List.cons_ne_nil _ _)
  | .number value, _, h => spells_renderNumber h
  | .text value, _, _ => by
    have hquoted := Token.spells_encode value.toList
    rwa [String.ofList_toList] at hquoted
  | .list items, depth, h => spells_block hlayout rfl rfl (spells_renderItems hlayout items _ h)
  | .object fields, depth, h =>
    spells_block hlayout rfl rfl (spells_renderFields hlayout fields _ h)

theorem spells_renderItems (hlayout : layout.Blank) : ∀ (items : List Json) (depth : Nat),
    ExactItems items → List.Forall₂ Spells (renderItems layout depth items) (itemTokens items)
  | [], _, _ => .nil
  | item :: items, depth, ⟨hitem, hitems⟩ =>
    .cons (spells_render hlayout item depth hitem) (spells_renderItems hlayout items depth hitems)

theorem spells_renderFields (hlayout : layout.Blank) :
    ∀ (fields : List (String × Json)) (depth : Nat), ExactFields fields →
      List.Forall₂ Spells (renderFields layout depth fields) (fieldTokens fields)
  | [], _, _ => .nil
  | (name, value) :: fields, depth, ⟨hvalue, hfields⟩ => by
    obtain ⟨gap, hcolon, hgap⟩ := hlayout.colon
    have hname := Token.spells_encode name.toList
    rw [String.ofList_toList] at hname
    have hmark : Token.punctuation? ':' = some .colon := rfl
    have hrest := ((spells_render hlayout value depth hvalue).blanks hgap).punctuation hmark
    have hfield := hname.append hrest (Token.endsWord_punctuation hmark)
    rw [← List.cons_append, ← hcolon, ← List.append_assoc] at hfield
    exact .cons hfield (spells_renderFields hlayout fields depth hfields)

end

end Json

/-! ### Reading tokens -/

namespace Written

/-- The tokens of a value do not begin with a closing bracket. -/
theorem exists_tokens (value : Json) :
    ∃ token rest, value.tokens = token :: rest ∧ token ≠ .closeList := by
  cases value with
  | _ => exact ⟨_, _, rfl, by simp⟩

mutual

/-- **The tokens of a value are read as the value.** -/
theorem readValue_tokens : ∀ (value : Json) (stack : List Frame) (rest : List Token),
    readValue stack (value.tokens ++ rest) = readNext stack value.written rest
  | .null, _, _ => rfl
  | .bool _, _, _ => rfl
  | .number _, _, _ => rfl
  | .text _, _, _ => rfl
  | .list [], _, _ => rfl
  | .list (item :: items), stack, rest => by
    obtain ⟨token, behind, htokens, hopen⟩ := exists_tokens item
    have hitem := readValue_tokens item (.items [] :: stack)
      ((Json.itemTokens items).flatMap (.comma :: ·) ++ .closeList :: rest)
    rw [readNext_items items] at hitem
    simp only [Json.tokens, Json.itemTokens, Json.commaSeparated, htokens, List.cons_append,
      List.append_assoc, List.nil_append] at hitem ⊢
    rw [readValue]
    · exact hitem
    · exact fun _ hsame => hopen (List.cons.inj hsame).1
  | .object [], _, _ => rfl
  | .object ((name, value) :: fields), stack, rest => by
    have hvalue := readValue_tokens value (.fields [] (some name) :: stack)
      ((Json.fieldTokens fields).flatMap (.comma :: ·) ++ .closeObject :: rest)
    rw [readNext_fields fields] at hvalue
    simpa [Json.tokens, Json.fieldTokens, Json.commaSeparated, readValue, Json.written,
      Json.writtenFields] using hvalue

theorem readNext_items : ∀ (items : List Json) (value : Written) (done : List Written)
    (stack : List Frame) (rest : List Token),
    readNext (.items done :: stack) value
        ((Json.itemTokens items).flatMap (.comma :: ·) ++ .closeList :: rest) =
      readNext stack (.list (done.reverse ++ value :: Json.writtenItems items)) rest
  | [], value, done, stack, rest => by
    simp [Json.itemTokens, Json.writtenItems, readNext]
  | item :: items, value, done, stack, rest => by
    have hitem := readValue_tokens item (.items (value :: done) :: stack)
      ((Json.itemTokens items).flatMap (.comma :: ·) ++ .closeList :: rest)
    rw [readNext_items items] at hitem
    simpa [Json.itemTokens, Json.writtenItems, readNext] using hitem

theorem readNext_fields : ∀ (fields : List (String × Json)) (name : Option String)
    (value : Written) (done : List (Option String × Written)) (stack : List Frame)
    (rest : List Token),
    readNext (.fields done name :: stack) value
        ((Json.fieldTokens fields).flatMap (.comma :: ·) ++ .closeObject :: rest) =
      readNext stack (.object (done.reverse ++ (name, value) :: Json.writtenFields fields)) rest
  | [], name, value, done, stack, rest => by
    simp [Json.fieldTokens, Json.writtenFields, readNext]
  | (next, field) :: fields, name, value, done, stack, rest => by
    have hfield := readValue_tokens field (.fields ((name, value) :: done) (some next) :: stack)
      ((Json.fieldTokens fields).flatMap (.comma :: ·) ++ .closeObject :: rest)
    rw [readNext_fields fields] at hfield
    simpa [Json.fieldTokens, Json.writtenFields, readNext] using hfield

end

/-- **What is printed is read as it was written**, in any layout. -/
theorem ofText?_render {value : Json} {layout : Json.Layout} (hlayout : layout.Blank)
    (hvalue : value.Exact) (depth : Nat) :
    ofText? (String.ofList (value.render layout depth)) = some value.written := by
  have htokens := (Json.spells_render hlayout value depth hvalue).ofChars?_eq
  have hread := readValue_tokens value [] []
  rw [List.append_nil] at hread
  rw [ofText?, String.toList_ofList, htokens, Option.bind_some, hread, readNext]

end Written

/-! ### Settings -/

theorem Settings.exact_toJson (s : Settings) : s.toJson.Exact := by
  have hversion : (Number.int s.version.toNat).Exact := by
    refine ⟨?_, ?_⟩
    · exact Nat.lt_trans s.version.toNat_lt (by decide)
    · rw [Int.toNat_of_nonpos (by omega)]
      exact Nat.zero_le _
  exact ⟨hversion, trivial, trivial, trivial, trivial⟩

/-- **Printed settings read back.** -/
theorem Settings.ofText?_pretty (s : Settings) : decoder.ofText? s.toJson.pretty = some s := by
  have hwritten := Written.ofText?_render Json.Layout.blank_pretty s.exact_toJson 0
  have hdepth : s.toJson.depth ≤ Written.maxDepth := show 1 ≤ 127 by decide
  have hread := Settings.reads s.spelledAs_written Written.maxDepth hdepth
  rw [Decoder.ofText?, Json.pretty, hwritten, Option.bind_some, hread]

end SchemaGraph
