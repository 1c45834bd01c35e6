import ClassSugar.Grammar.Cursor
import ClassSugar.Grammar.Fragment
import ClassSugar.Grammar.Lookahead

/-!
# Readers

A reader moves a cursor over the tokens it takes and returns what they mean, or an error. A reader
that fails leaves the cursor where it was when it failed, so that `attempt` can give the tokens back
while the comments that were taken stay taken.

Two combinators carry all repetition of the grammar. `rounds` repeats a reader and `nested` ties the
knot of a recursive one. Both go on only where fewer tokens are ahead than before, which makes every
reader total; a reader that would go on without taking a token fails with the cause `stalled`.
-/

namespace ClassSugar

/-- A reader of tokens. -/
abbrev Reader (α : Type) : Type :=
  EStateM SyntaxError Cursor α

namespace Reader

variable {α β : Type}

/-! ### Failing and looking -/

/-- Fails at a span. -/
def failAt (cause : SyntaxError.Cause) (span : Span) : Reader α :=
  throw ⟨cause, span⟩

/-- The tokens ahead. -/
def ahead : Reader (List Token) :=
  return (← get).ahead

/-- The number of tokens taken. -/
def position : Reader Nat :=
  return (← get).position

/-- The token ahead. -/
def peek : Reader Token :=
  return (← get).current

/-- Whether no token is ahead. -/
def atEnd : Reader Bool :=
  return (← ahead).isEmpty

/-- Whether the token ahead is this operator or bracket. -/
def atPunct (text : String) : Reader Bool :=
  return Lookahead.atPunct text (← ahead)

/-- Whether the token ahead is this word. -/
def atWord (word : String) : Reader Bool :=
  return Lookahead.atWord word (← ahead)

/-- Fails at the token ahead, where something else was expected. -/
def expected (what : Expected) : Reader α := do
  let t ← peek
  failAt (.expected what (if t.isEof then none else some t.text)) t.span

/-! ### Taking tokens -/

/-- Takes the next `n` tokens. -/
def take (n : Nat) : Reader (List Token) :=
  modifyGet fun c => (c.ahead.take n, c.advance n)

/-- Takes one token, if there is one. -/
def skip : Reader Unit := do
  let _ ← take 1

/-- The tokens taken from an earlier position on. -/
def since (position : Nat) : Reader (List Token) :=
  return (← get).since position

/-- Takes the comments before the token ahead. -/
def takeComments : Reader (List Verbatim) :=
  modifyGet fun c => (c.current.leading.map Verbatim.ofComment, c.dropComments)

/-- Takes this operator or bracket, if it is ahead. -/
def eatPunct (text : String) : Reader Bool := do
  if ← atPunct text then
    skip
    return true
  else
    return false

/-- Takes this word, if it is ahead. -/
def eatWord (word : String) : Reader Bool := do
  if ← atWord word then
    skip
    return true
  else
    return false

/-- Takes this operator or bracket. -/
def expectPunct (text : String) : Reader Unit := do
  unless ← eatPunct text do
    expected (.text text)

/-- Takes this word. -/
def expectWord (word : String) : Reader Unit := do
  unless ← eatWord word do
    expected (.text word)

/-- Takes an identifier or keyword. -/
def expectIdent : Reader String := do
  match (← peek).ident? with
  | some word =>
    skip
    return word
  | none => expected .identifier

/-- Takes the words ahead that pass a test. -/
def takeWords (test : String → Bool) : Reader (List String) := do
  let run := (← ahead).takeWhile fun t => t.ident?.any test
  let ts ← take run.length
  return ts.map Token.text

/-- Takes the tokens up to the first one outside of brackets that passes a test. -/
def takeUntil (angles : Bool) (stop : Token → Bool) : Reader (List Token) := do
  match Lookahead.countUntil angles stop 0 (← ahead) with
  | .ok n => take n
  | .error .atEnd => failAt .unexpectedEnd (← get).last.span
  | .error (.atBracket t) => failAt (.unbalanced t.text) t.span

/-- Takes the bracket group ahead, if it is closed. -/
def takeGroup? : Reader (Option (List Token)) := do
  match Lookahead.skipGroup (← ahead) with
  | some group => return some (← take group.read.length)
  | none => return none

/-! ### Repetition -/

/-- Reads without committing: a reader that fails or finds nothing gives its tokens back. -/
def attempt (p : Reader (Option α)) : Reader (Option α) := fun c =>
  match p c with
  | .ok (some a) c' => .ok (some a) c'
  | .ok none c' => .ok none (c'.rewind c.position)
  | .error _ c' => .ok none (c'.rewind c.position)

/-- Repeats a reader, collecting what it finds, for as long as it asks to go on. -/
def rounds (round : Reader (List α × Bool)) (c : Cursor) :
    EStateM.Result SyntaxError Cursor (List α) :=
  match round c with
  | .error e c' => .error e c'
  | .ok (found, false) c' => .ok found c'
  | .ok (found, true) c' =>
    if c'.ahead.length < c.ahead.length then
      match rounds round c' with
      | .ok more c'' => .ok (found ++ more) c''
      | .error e c'' => .error e c''
    else
      .error ⟨.stalled, c'.current.span⟩ c'
termination_by c.ahead.length

/-- A reader that may call itself, once it has taken a token. -/
def nested (body : (β → Reader α) → β → Reader α) (b : β) (c : Cursor) :
    EStateM.Result SyntaxError Cursor α :=
  body
    (fun b' c' =>
      if c'.ahead.length < c.ahead.length then
        nested body b' c'
      else
        .error ⟨.stalled, c'.current.span⟩ c')
    b c
termination_by c.ahead.length

end Reader

end ClassSugar
