import Camel.Syntax.Scan

/-! # The Lexer

    One pass over the bytes of a range. What the lexer does at the first byte of a
    token is an `Action`: the token or the error and where it ends. Unclosed strings end
    with their line, and what follows is source again.
-/

namespace Camel.Syntax

/-! ## One Token -/

inductive Action where
  /-- A token, and the line starts inside it. -/
  | emit (kind : TokenKind) (stop : Nat) (lines : List Nat)
  | fString (stop : Nat) (parts : List (Nat × Nat)) (lines : List Nat)
  | trivia (kind : TokenKind) (stop : Nat) (spansLines : Bool) (lines : List Nat)
  /-- An error from `begin` on, whose text is an Error token. -/
  | error (kind : LexErrorKind) (begin stop : Nat) (spansLines : Bool) (lines : List Nat)

section Scan

variable (s : List UInt8) (n : Nat)

variable (i : Nat)

/-- Names, keywords and raw strings. -/
def scanWord : Action :=
  let opening := if byte s i = ch 'r' then scanWhile (· = ch '#') s n (i + 1) else i + 1
  if byte s i = ch 'r' ∧ at? s n opening = doubleQuote then
    match rawEnd (opening - (i + 1)) s n (opening + 1) with
    | some j => .emit .rawString j (noteLines s (opening + 1) j)
    | none => .error .unclosedString opening (lineEnd s n i) false []
  else
    let j := scanWhile isIdentPart s n (i + 1)
    .emit (classifyWord ((s.drop i).take (j - i))) j []

/-- `[eE][+-]?[0-9]+` at `j`, or nothing. -/
def exponentEnd (j : Nat) : Nat :=
  if at? s n j = ch 'e' ∨ at? s n j = ch 'E' then
    let k := if at? s n (j + 1) = ch '+' ∨ at? s n (j + 1) = ch '-' then j + 2 else j + 1
    if isDigit (at? s n k) then scanWhile isDigit s n k else j
  else j

/-- An `i` with no identifier character behind it belongs to the number. -/
def imaginaryAt (k : Nat) : Bool := at? s n k = ch 'i' && !isIdentPart (at? s n (k + 1))

/-- The end of an integer whose run of decimal digits ends at `j`, and whether it is not a
    number. -/
def integerEnd (i j : Nat) : Nat × Bool :=
  if byte s i = ch '0' then
    if at? s n (i + 1) = ch 'x' then
      let e := scanWhile isHexDigit s n (i + 2)
      if e = i + 2 then (e, true)
      else if (at? s n (e - 1) = ch 'e' ∨ at? s n (e - 1) = ch 'E') ∧ i + 2 < e - 1 ∧
          (at? s n e = ch '+' ∨ at? s n e = ch '-') ∧ isDigit (at? s n (e + 1)) then (e - 1, false)
      else (e, false)
    else if at? s n (i + 1) = ch 'b' then
      let e := scanWhile (fun c => c = ch '0' || c = ch '1') s n (i + 2)
      if e = i + 2 ∨ isDigit (at? s n e) then (scanWhile isDigit s n e, true) else (e, false)
    else if at? s n (i + 1) = ch 'o' then
      let e := scanWhile (fun c => ch '0' ≤ c && c ≤ ch '7') s n (i + 2)
      if e = i + 2 ∨ at? s n e = ch '8' ∨ at? s n e = ch '9' then (scanWhile isDigit s n e, true)
      else (e, false)
    else if isDigit (at? s n (i + 1)) then
      let e := exponentEnd s n j
      (if imaginaryAt s n e then e + 1 else e, true)
    else (i + 1, false)
  else (j, false)

def scanNumber : Action :=
  let j := scanWhile isDigit s n (i + 1)
  if at? s n j = ch '.' ∧ isDigit (at? s n (j + 1)) then
    let k := exponentEnd s n (scanWhile isDigit s n (j + 2))
    if byte s i = ch '0' ∧ isDigit (at? s n (i + 1)) then
      .error .invalidNumber i (if imaginaryAt s n k then k + 1 else k) false []
    else if imaginaryAt s n k then .emit .imaginary (k + 1) []
    else .emit .real k []
  else
    let (digitsEnd, invalid) := integerEnd s n i j
    if invalid then
      -- a prefix without digits takes the word behind it
      .error .invalidNumber i
        (if digitsEnd = i + 2 then scanWhile isIdentPart s n digitsEnd else digitsEnd) false []
    else
      let e := exponentEnd s n digitsEnd
      let decimal := byte s i ≠ ch '0' ∨ digitsEnd = i + 1
      if decimal ∧ imaginaryAt s n e then .emit .imaginary (e + 1) []
      else .emit (if digitsEnd < e ∧ decimal then .real else .integer) e []

def scanString : Action :=
  match stringEnd (byte s i) s n (i + 1) with
  | some j => .emit .string j (noteLines s (i + 1) j)
  | none => .error .unclosedString i (lineEnd s n i) false []

def scanQuote : Action :=
  let c := byte s i
  if c ≠ backtick ∧ at? s n (i + 1) = c ∧ at? s n (i + 2) = c then
    match find [c, c, c] s n (i + 3) with
    | some close => .emit .multiStr (close + 3) (noteLines s i (close + 3))
    | none => scanString s n i
  else if c = backtick then
    match fstringEnd s n (i + 1) with
    | some (j, parts) => .fString j parts (noteLines s i j)
    | none => .error .unclosedString i (lineEnd s n i) false []
  else scanString s n i

/-- An interpreter line at the start of the text, or a `#`. -/
def scanHash : Action :=
  if i = 0 ∧ at? s n 1 = ch '!' then
    .trivia .command (scanWhile (fun c => inLine c && c ≠ formFeed) s n (i + 1)) false []
  else .emit .hash (i + 1) []

/-- An operator or a separator and its length. -/
def operator (c c1 c2 : UInt8) (touches : Bool) : TokenKind × Nat :=
  if c = ch ';' then (.semi, 1)
  else if c = ch ',' then (.comma, 1)
  else if c = ch '(' then (.lParen, 1)
  else if c = ch ')' then (.rParen, 1)
  else if c = ch '[' then (.lBracket, 1)
  else if c = ch ']' then (.rBracket, 1)
  else if c = ch '{' then (.lBrace, 1)
  else if c = ch '}' then (.rBrace, 1)
  else if c = ch '~' then (.tilde, 1)
  else if c = ch ':' then if c1 = ch ':' then (.colonColon, 2) else (.colon, 1)
  else if c = ch '.' then
    if c1 = ch '.' ∧ c2 = ch '.' then (.ellipsis, 3)
    else if c1 = ch '.' then (.dotDot, 2) else (.dot, 1)
  else if c = ch '=' then
    if c1 = ch '=' ∧ c2 = ch '=' then (.eqEqEq, 3)
    else if c1 = ch '=' then (.eqEq, 2)
    else if c1 = ch '>' then (.fatArrow, 2) else (.assign, 1)
  else if c = ch '<' then
    if c1 = ch '=' ∧ c2 = ch '>' then (.equiv, 3)
    else if c1 = ch '=' then (.ltEq, 2)
    else (if touches then .lAngle else .lt, 1)
  else if c = ch '>' then if c1 = ch '=' then (.gtEq, 2) else (.gt, 1)
  else if c = ch '+' then if c1 = ch '=' then (.plusAssign, 2) else (.plus, 1)
  else if c = ch '-' then
    if c1 = ch '=' then (.minusAssign, 2) else if c1 = ch '>' then (.arrow, 2) else (.minus, 1)
  else if c = ch '*' then if c1 = ch '=' then (.starAssign, 2) else (.star, 1)
  else if c = ch '/' then if c1 = ch '=' then (.slashAssign, 2) else (.slash, 1)
  else if c = ch '%' then if c1 = ch '=' then (.percentAssign, 2) else (.percent, 1)
  else if c = ch '^' then if c1 = ch '=' then (.caretAssign, 2) else (.caret, 1)
  else if c = ch '@' then if c1 = ch '=' then (.atAssign, 2) else (.at, 1)
  else if c = ch '&' then
    if c1 = ch '&' then (.ampAmp, 2) else if c1 = ch '=' then (.ampAssign, 2) else (.amp, 1)
  else if c = ch '|' then
    if c1 = ch '|' then (.pipePipe, 2) else if c1 = ch '=' then (.pipeAssign, 2) else (.pipe, 1)
  else if c = ch '!' then
    if c1 = ch '=' ∧ c2 = ch '=' then (.notEqEq, 3)
    else if c1 = ch '=' then (.notEq, 2)
    else if c1 = ch '!' then (.bangBang, 2) else (.bang, 1)
  else if c = ch '?' then if c1 = ch '?' then (.questionQuestion, 2) else (.question, 1)
  else (.error, 1)

/-- Comments and operators. `touches` says that the token before can end an operand and
    that nothing separates it from this one. -/
def scanPunct (touches : Bool) (i : Nat) : Action :=
  if byte s i = ch '/' ∧ at? s n (i + 1) = ch '/' then
    let doc := at? s n (i + 2) = ch '/' ∧ at? s n (i + 3) ≠ ch '/'
    .trivia (if doc then .docComment else .lineComment) (scanWhile inLine s n (i + 2)) false []
  else if byte s i = ch '/' ∧ at? s n (i + 1) = ch '*' then
    match find [ch '*', ch '/'] s n (i + 2) with
    | none =>
      .error .unterminatedComment i n (!(noteLines s i n).isEmpty) (noteLines s i n)
    | some close =>
      .trivia .blockComment (close + 2) (!(noteLines s i (close + 2)).isEmpty)
        (noteLines s i (close + 2))
  else
    let (kind, length) := operator (byte s i) (at? s n (i + 1)) (at? s n (i + 2)) touches
    .emit kind (i + length) []

/-- A run of bytes that start no token. -/
def scanIllegal : Action :=
  .error .illegalCharacter i (scanWhile (fun c => charClass c = .illegal) s n i) false []

end Scan

/-! ## The Pass -/

/-- One `${...}` of a formatted string. -/
structure FStringInterpolation where
  token : Nat
  opening : Nat
  exprBegin : Nat
  exprEnd : Nat
  specBegin : Nat
  specEnd : Nat
  close : Nat
  hasSpec : Bool

structure TokenBuffer where
  source : List UInt8
  tokens : List Token
  errors : List LexError
  interpolations : List FStringInterpolation
  lineStarts : List Nat

/-- The buffer so far, the position, what separates the next token from the last one, and
    the kind of the last token that is not trivia. -/
structure LexState where
  i : Nat
  buffer : TokenBuffer
  pending : Flags
  previous : TokenKind

/-- The interpolation as it is found, before it is split. -/
def newPart (token : Nat) (part : Nat × Nat) : FStringInterpolation :=
  { token := u32 token, opening := u32 part.1, exprBegin := u32 (part.1 + 2), exprEnd := 0,
    specBegin := 0, specEnd := 0, close := u32 part.2, hasSpec := false }

/-- `emit`. -/
def LexState.emit (st : LexState) (kind : TokenKind) (stop : Nat) (lines : List Nat) : LexState :=
  { i := stop
    buffer := { st.buffer with
      tokens := st.buffer.tokens ++ [⟨u32 st.i, u32 stop, kind, st.pending⟩]
      lineStarts := st.buffer.lineStarts ++ lines }
    pending := ⟨false, false⟩
    previous := kind }

/-- `emitTrivia`. -/
def LexState.emitTrivia (st : LexState) (kind : TokenKind) (stop : Nat) (spansLines : Bool)
    (lines : List Nat) : LexState :=
  { i := stop
    buffer := { st.buffer with
      tokens := st.buffer.tokens ++ [⟨u32 st.i, u32 stop, kind, st.pending⟩]
      lineStarts := st.buffer.lineStarts ++ lines }
    pending := ⟨true, st.pending.newline || spansLines⟩
    previous := st.previous }

/-- Records what was found at the position; `split` is `splitInterpolation`. -/
def LexState.act (split : FStringInterpolation → FStringInterpolation) (st : LexState) :
    Action → LexState
  | .emit kind stop lines => st.emit kind stop lines
  | .fString stop parts lines =>
    let found := parts.map fun part => split (newPart st.buffer.tokens.length part)
    LexState.emit { st with buffer := { st.buffer with
      interpolations := st.buffer.interpolations ++ found } } .fString stop lines
  | .trivia kind stop spansLines lines => st.emitTrivia kind stop spansLines lines
  | .error kind begin stop spansLines lines =>
    LexState.emitTrivia { st with buffer := { st.buffer with
      errors := st.buffer.errors ++ [⟨kind, u32 begin, u32 stop⟩] } } .error stop spansLines lines

/-- What the lexer finds at the position, where no white space is. -/
def LexState.action (n : Nat) (st : LexState) : CharClass → Action
  | .identStart => scanWord st.buffer.source n st.i
  | .digit => scanNumber st.buffer.source n st.i
  | .quote => scanQuote st.buffer.source n st.i
  | .hash => scanHash st.buffer.source n st.i
  | .punct => scanPunct st.buffer.source n (st.pending = ⟨false, false⟩ && endsAngleHost st.previous)
      st.i
  | _ => scanIllegal st.buffer.source n st.i

/-- One turn of the loop. -/
def LexState.step (split : FStringInterpolation → FStringInterpolation) (n : Nat) (st : LexState) :
    LexState :=
  match charClass (byte st.buffer.source st.i) with
  | .blank => { st with i := st.i + 1, pending := { st.pending with space := true } }
  | .newline =>
    { st with
      i := st.i + 1
      pending := ⟨true, true⟩
      buffer := { st.buffer with lineStarts := st.buffer.lineStarts ++ [u32 (st.i + 1)] } }
  | cls => st.act split (st.action n cls)

end Camel.Syntax
