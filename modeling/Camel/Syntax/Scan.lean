import Mathlib

/-! # Tokens

    The tokens of the language, the classes of bytes that start them and the table of
    keywords. A token is a range of bytes of the source text, its kind, and what stood
    between it and the token before it.
-/

namespace Camel.Syntax

/-! ## Kinds -/

inductive TokenKind where
  | eof | error | command | lineComment | docComment | blockComment
  | identifier | integer | real | imaginary | string | rawString | multiStr | fString
  | kwAs | kwLet | kwVar | kwFrom | kwFunc | kwType | kwEnum | kwWith | kwConst | kwConstas
  | kwReturn | kwImport | kwExport | kwTypeof | kwUsing | kwNamespace | kwIf | kwThen | kwElse
  | kwMatch | kwCase | kwFor | kwIn | kwYield | kwLoop | kwWhile | kwDo | kwSync | kwStatic
  | kwNull | kwTrue | kwFalse
  | semi | comma | colon | colonColon | dot | dotDot | ellipsis | lParen | rParen | lBracket
  | rBracket | lBrace | rBrace | lAngle | lt | gt | ltEq | equiv | gtEq | eqEq | notEq | eqEqEq
  | notEqEq | assign | plusAssign | minusAssign | starAssign | slashAssign | percentAssign
  | caretAssign | atAssign | ampAssign | pipeAssign | plus | minus | star | slash | percent
  | caret | at | hash | amp | pipe | ampAmp | pipePipe | bang | bangBang | tilde | question
  | questionQuestion | arrow | fatArrow | underscore
  deriving DecidableEq

/-- Tokens the parser does not see: comments and the text of a lexical error. -/
def isTrivia : TokenKind → Bool
  | .error | .command | .lineComment | .docComment | .blockComment => true
  | _ => false

/-- The flags `SpaceBefore` and `NewlineBefore`. -/
structure Flags where
  space : Bool
  newline : Bool
  deriving DecidableEq

structure Token where
  begin : Nat
  stop : Nat
  kind : TokenKind
  flags : Flags

inductive LexErrorKind where
  | illegalCharacter | invalidNumber | unclosedString | unterminatedComment
  deriving DecidableEq

structure LexError where
  kind : LexErrorKind
  begin : Nat
  stop : Nat
  deriving DecidableEq

/-- Offsets are kept in 32 bits. -/
def u32 (offset : Nat) : Nat := offset % 2 ^ 32

theorem u32_eq {offset : Nat} (h : offset < 2 ^ 32) : u32 offset = offset :=
  Nat.mod_eq_of_lt h

/-! ## Bytes -/

/-- The byte of an ASCII character. -/
def ch (c : Char) : UInt8 := c.toUInt8

def singleQuote : UInt8 := 39

def doubleQuote : UInt8 := 34

def backtick : UInt8 := 96

def backslash : UInt8 := 92

def formFeed : UInt8 := 12

inductive CharClass where
  | illegal | blank | newline | identStart | digit | quote | punct | hash
  deriving DecidableEq

def isDigit (c : UInt8) : Bool := ch '0' ≤ c && c ≤ ch '9'

def isHexDigit (c : UInt8) : Bool :=
  isDigit c || (ch 'a' ≤ c && c ≤ ch 'f') || (ch 'A' ≤ c && c ≤ ch 'F')

def punctuation : List UInt8 :=
  [';', ',', ':', '.', '(', ')', '[', ']', '{', '}', '<', '>', '=', '+', '-', '*', '/', '%', '^',
    '@', '&', '|', '!', '~', '?'].map ch

/-- `kCharClass`. -/
def charClass (c : UInt8) : CharClass :=
  if c = ch ' ' ∨ c = ch '\t' ∨ c = ch '\r' ∨ c = formFeed then .blank
  else if c = ch '\n' then .newline
  else if (ch 'a' ≤ c ∧ c ≤ ch 'z') ∨ (ch 'A' ≤ c ∧ c ≤ ch 'Z') ∨ c = ch '_' then .identStart
  else if isDigit c then .digit
  else if c = singleQuote ∨ c = doubleQuote ∨ c = backtick then .quote
  else if c ∈ punctuation then .punct
  else if c = ch '#' then .hash
  else .illegal

def isIdentPart (c : UInt8) : Bool := charClass c = .identStart || charClass c = .digit

/-- White space is the text between two tokens. -/
def isSpace (c : UInt8) : Bool := charClass c = .blank || charClass c = .newline

/-! ## Words -/

def keywordTable : List (String × TokenKind) :=
  [("as", .kwAs), ("let", .kwLet), ("var", .kwVar), ("from", .kwFrom), ("func", .kwFunc),
    ("type", .kwType), ("enum", .kwEnum), ("with", .kwWith), ("const", .kwConst),
    ("constas", .kwConstas), ("return", .kwReturn), ("import", .kwImport), ("export", .kwExport),
    ("typeof", .kwTypeof), ("using", .kwUsing), ("namespace", .kwNamespace), ("if", .kwIf),
    ("then", .kwThen), ("else", .kwElse), ("match", .kwMatch), ("case", .kwCase), ("for", .kwFor),
    ("in", .kwIn), ("yield", .kwYield), ("loop", .kwLoop), ("while", .kwWhile), ("do", .kwDo),
    ("sync", .kwSync), ("static", .kwStatic), ("null", .kwNull), ("true", .kwTrue),
    ("false", .kwFalse)]

/-- The keyword a text is, or a name. The source finds it through a table with open
    addressing that holds each keyword once. -/
def classifyWord (text : List UInt8) : TokenKind :=
  if text.length < 2 ∨ 9 < text.length then
    if text = [ch '_'] then .underscore else .identifier
  else
    match keywordTable.find? fun entry => entry.1.toList.map ch == text with
    | some entry => entry.2
    | none => .identifier

/-- Tokens after which a `<` that touches them opens an angle-bracket argument list. -/
def endsAngleHost : TokenKind → Bool
  | .identifier | .integer | .real | .string | .rawString | .multiStr | .fString | .kwTrue
  | .kwFalse | .kwNull | .rParen | .rBracket | .rBrace | .gt | .bang => true
  | _ => false

/-- A word is neither trivia nor the end of the text. -/
theorem classifyWord_ne (text : List UInt8) :
    classifyWord text ≠ .eof ∧ classifyWord text ≠ .error := by
  rw [classifyWord]
  split
  next => split <;> decide
  next =>
    cases h : keywordTable.find? fun entry => entry.1.toList.map ch == text with
    | none => decide
    | some entry =>
      have hall : ∀ e ∈ keywordTable, e.2 ≠ .eof ∧ e.2 ≠ .error := by decide
      exact hall entry (List.mem_of_find?_eq_some h)

end Camel.Syntax

/-! # Scanning

    The loops of the lexer inside one token. A text is a list of bytes and `n` is the
    end of the range that is read; a scan goes on from a position and ends at one that
    is not before it. Where a scan goes on from the result of another, the result
    carries the proof that it is farther on: that is why the scans end.
-/

namespace Camel.Syntax

/-! ## Runs of Bytes -/

variable (s : List UInt8)

def byte (i : Nat) : UInt8 := s.getD i 0

/-- The byte at a position, and 0 behind the range. -/
def at? (n i : Nat) : UInt8 := if i < n then byte s i else 0

/-- The end of the run of bytes in `p` from `j` on. -/
def scanWhile (p : UInt8 → Bool) (s : List UInt8) (n j : Nat) : Nat :=
  if j < n ∧ p (byte s j) then scanWhile p s n (j + 1) else j
termination_by n - j

theorem le_scanWhile (p : UInt8 → Bool) (s : List UInt8) (n j : Nat) :
    j ≤ scanWhile p s n j := by
  induction j using scanWhile.induct p s n with
  | case1 j h ih =>
    rw [scanWhile, if_pos h]
    omega
  | case2 j h =>
    have heq : scanWhile p s n j = j := by rw [scanWhile, if_neg h]
    exact Nat.le_of_eq heq.symm

theorem lt_scanWhile {p : UInt8 → Bool} {s : List UInt8} {n j : Nat} (hj : j < n)
    (hp : p (byte s j) = true) : j < scanWhile p s n j := by
  rw [scanWhile, if_pos ⟨hj, hp⟩]
  exact le_scanWhile p s n (j + 1)

theorem scanWhile_le (p : UInt8 → Bool) (s : List UInt8) {n j : Nat} (hj : j ≤ n) :
    scanWhile p s n j ≤ n := by
  induction j using scanWhile.induct p s n with
  | case1 j h ih =>
    rw [scanWhile, if_pos h]
    exact ih h.1
  | case2 j h => rwa [scanWhile, if_neg h]

/-- The starts of the lines that begin behind the line breaks in a range. -/
def noteLines (begin stop : Nat) : List Nat :=
  ((List.range' begin (stop - begin)).filter fun k => byte s k = ch '\n').map fun k => u32 (k + 1)

/-- A byte of a line comment. -/
def inLine (c : UInt8) : Bool := c ≠ ch '\n' && c ≠ ch '\r'

/-- The end of the line a position is on. -/
def lineEnd (n i : Nat) : Nat := scanWhile (· ≠ ch '\n') s n i

/-- Where a text is found in the range, from `j` on. -/
def find (text s : List UInt8) (n j : Nat) : Option Nat :=
  if j + text.length ≤ n ∧ j < n then
    if (s.drop j).take text.length = text then some j else find text s n (j + 1)
  else none
termination_by n - j

theorem find_spec {text s : List UInt8} {n j p : Nat} (h : find text s n j = some p) :
    j ≤ p ∧ p + text.length ≤ n := by
  induction j using find.induct text s n with
  | case1 j hj hfound =>
    rw [find, if_pos hj, if_pos hfound] at h
    cases h
    exact ⟨Nat.le_refl _, hj.1⟩
  | case2 j hj hno ih =>
    rw [find, if_pos hj, if_neg hno] at h
    obtain ⟨hle, hend⟩ := ih h
    exact ⟨by omega, hend⟩
  | case3 j hj =>
    rw [find, if_neg hj] at h
    cases h

/-! ## Strings -/

/-- The end of a string with escapes that the quote `c` closes, from `j` on. -/
def stringEnd (c : UInt8) (s : List UInt8) (n j : Nat) : Option Nat :=
  if j < n then
    if byte s j = c then some (j + 1)
    else if byte s j = backslash ∧ j + 1 < n ∧ (byte s (j + 1) = c ∨ byte s (j + 1) = backslash) then
      stringEnd c s n (j + 2)
    else stringEnd c s n (j + 1)
  else none
termination_by n - j

theorem stringEnd_spec {c : UInt8} {s : List UInt8} {n j e : Nat} (h : stringEnd c s n j = some e) :
    j < e ∧ e ≤ n := by
  induction j using stringEnd.induct c s n with
  | case1 j hj hc =>
    rw [stringEnd, if_pos hj, if_pos hc] at h
    cases h
    exact ⟨Nat.lt_succ_self _, hj⟩
  | case2 j hj hc hesc ih =>
    rw [stringEnd, if_pos hj, if_neg hc, if_pos hesc] at h
    obtain ⟨hlt, hle⟩ := ih h
    exact ⟨by omega, hle⟩
  | case3 j hj hc hesc ih =>
    rw [stringEnd, if_pos hj, if_neg hc, if_neg hesc] at h
    obtain ⟨hlt, hle⟩ := ih h
    exact ⟨by omega, hle⟩
  | case4 j hj =>
    rw [stringEnd, if_neg hj] at h
    cases h

/-- How many `#` stand from `k` on, of at most `limit`. -/
def countHashes (s : List UInt8) (n : Nat) : Nat → Nat → Nat
  | _, 0 => 0
  | k, limit + 1 => if k < n ∧ byte s k = ch '#' then countHashes s n (k + 1) limit + 1 else 0

theorem countHashes_le {n k : Nat} (hk : k ≤ n) (limit : Nat) :
    k + countHashes s n k limit ≤ n := by
  induction limit generalizing k with
  | zero => exact hk
  | succ limit ih =>
    rw [countHashes]
    split
    next h =>
      have := ih (show k + 1 ≤ n by omega)
      omega
    next => exact hk

/-- The end of a raw string: a quote with as many `#` behind it as the opening one has
    before it. -/
def rawEnd (hashes : Nat) (s : List UInt8) (n j : Nat) : Option Nat :=
  if j < n then
    if byte s j = doubleQuote ∧ countHashes s n (j + 1) hashes = hashes then some (j + 1 + hashes)
    else rawEnd hashes s n (j + 1)
  else none
termination_by n - j

theorem rawEnd_spec {hashes : Nat} {s : List UInt8} {n j e : Nat}
    (h : rawEnd hashes s n j = some e) : j < e ∧ e ≤ n := by
  induction j using rawEnd.induct hashes s n with
  | case1 j hj hclose =>
    rw [rawEnd, if_pos hj, if_pos hclose] at h
    cases h
    have := countHashes_le s (show j + 1 ≤ n from hj) hashes
    rw [hclose.2] at this
    exact ⟨by omega, this⟩
  | case2 j hj hclose ih =>
    rw [rawEnd, if_pos hj, if_neg hclose] at h
    obtain ⟨hlt, hle⟩ := ih h
    exact ⟨by omega, hle⟩
  | case3 j hj =>
    rw [rawEnd, if_neg hj] at h
    cases h

/-! ## Formatted Strings -/

/-- A position of the range that is farther on than `j`. -/
abbrev After (n j : Nat) := { e : Nat // j < e ∧ e ≤ n }

def After.since {n j k : Nat} (h : j ≤ k) (e : After n k) : After n j :=
  ⟨e.1, Nat.lt_of_le_of_lt h e.2.1, e.2.2⟩

/-- The brace that ends an interpolation, at `j` or farther on. -/
abbrev Brace (n j : Nat) := { close : Nat // j ≤ close ∧ close < n }

def Brace.since {n j k : Nat} (h : j ≤ k) (e : Brace n k) : Brace n j :=
  ⟨e.1, Nat.le_trans h e.2.1, e.2.2⟩

mutual

/-- The end of a formatted string, nested interpolations included; `skipFString` starts
    behind the opening backtick. -/
def skipFStringFrom (s : List UInt8) (n j : Nat) : Option (After n j) :=
  if hj : j < n then
    if byte s j = backtick then some ⟨j + 1, by omega⟩
    else if byte s j = backslash ∧ j + 1 < n then
      if j + 2 < n ∧ byte s (j + 1) = ch '$' ∧ byte s (j + 2) = ch '{' then
        (skipFStringFrom s n (j + 3)).map (After.since (by omega))
      else if byte s (j + 1) = backtick ∨ byte s (j + 1) = backslash then
        (skipFStringFrom s n (j + 2)).map (After.since (by omega))
      else (skipFStringFrom s n (j + 1)).map (After.since (by omega))
    else if byte s j = ch '$' ∧ j + 1 < n ∧ byte s (j + 1) = ch '{' then
      match scanInterpolationFrom s n (j + 2) 0 with
      | none => none
      | some ⟨close, _⟩ => (skipFStringFrom s n (close + 1)).map (After.since (by omega))
    else (skipFStringFrom s n (j + 1)).map (After.since (by omega))
  else none
termination_by 2 * (n - j)

/-- The end of the string that starts at `i`. -/
def skipQuoted (s : List UInt8) (n i : Nat) (hi : i < n) : Option (After n i) :=
  if byte s i = backtick then (skipFStringFrom s n (i + 1)).map (After.since (by omega))
  else if h : i + 2 < n ∧ byte s (i + 1) = byte s i ∧ byte s (i + 2) = byte s i then
    match hfind : find [byte s i, byte s i, byte s i] s n (i + 3) with
    | some j => some ⟨j + 3, by
        have := find_spec hfind
        simp only [List.length_cons, List.length_nil] at this
        omega⟩
    | none => some ⟨i + 2, by omega⟩
  else
    match hend : stringEnd (byte s i) s n (i + 1) with
    | some e => some ⟨e, by
        have := stringEnd_spec hend
        omega⟩
    | none => none
termination_by 2 * (n - i)

/-- The `}` that ends an interpolation; strings, comments and nested braces are skipped.
    `scanInterpolation` starts behind the opening brace, at depth 0. -/
def scanInterpolationFrom (s : List UInt8) (n j depth : Nat) : Option (Brace n j) :=
  if hj : j < n then
    if byte s j = singleQuote ∨ byte s j = doubleQuote ∨ byte s j = backtick then
      match skipQuoted s n j hj with
      | none => none
      | some ⟨e, _⟩ => (scanInterpolationFrom s n e depth).map (Brace.since (by omega))
    else if h : byte s j = ch '/' ∧ j + 1 < n ∧ byte s (j + 1) = ch '/' then
      have hlt : j < scanWhile inLine s n j := by
        apply lt_scanWhile hj
        rw [h.1]
        decide
      (scanInterpolationFrom s n (scanWhile inLine s n j) depth).map
        (Brace.since (by omega))
    else if byte s j = ch '/' ∧ j + 1 < n ∧ byte s (j + 1) = ch '*' then
      match hfind : find [ch '*', ch '/'] s n (j + 2) with
      | none => none
      | some k =>
        have hle := (find_spec hfind).1
        (scanInterpolationFrom s n (k + 2) depth).map (Brace.since (by omega))
    else if byte s j = ch '{' then
      (scanInterpolationFrom s n (j + 1) (depth + 1)).map (Brace.since (by omega))
    else if byte s j = ch '}' then
      if depth = 0 then some ⟨j, by omega⟩
      else (scanInterpolationFrom s n (j + 1) (depth - 1)).map (Brace.since (by omega))
    else (scanInterpolationFrom s n (j + 1) depth).map (Brace.since (by omega))
  else none
termination_by 2 * (n - j) + 1

end

/-- The end of the formatted string with its interpolations, each by the position of its `$`
    and of its closing brace. -/
def fstringEnd (s : List UInt8) (n j : Nat) : Option (Nat × List (Nat × Nat)) :=
  if j < n then
    if byte s j = backtick then some (j + 1, [])
    else if byte s j = backslash ∧ j + 1 < n then
      if j + 2 < n ∧ byte s (j + 1) = ch '$' ∧ byte s (j + 2) = ch '{' then fstringEnd s n (j + 3)
      else if byte s (j + 1) = backtick then fstringEnd s n (j + 2)
      else if byte s (j + 1) = backslash then fstringEnd s n (j + 2)
      else fstringEnd s n (j + 1)
    else if byte s j = ch '$' ∧ j + 1 < n ∧ byte s (j + 1) = ch '{' then
      match scanInterpolationFrom s n (j + 2) 0 with
      | none => none
      | some ⟨close, _⟩ =>
        (fstringEnd s n (close + 1)).map fun (e, parts) => (e, (j, close) :: parts)
    else fstringEnd s n (j + 1)
  else none
termination_by n - j

end Camel.Syntax
