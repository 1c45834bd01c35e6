import ClassSugar.Text.Tail
import ClassSugar.Token.Basic
import ClassSugar.Tree.Identifier

/-!
# Looking ahead

Much of the grammar is decided by looking at the tokens ahead without taking them: where a bracket
group ends, whether a type stands here, where the next comma at this level is, where a statement
stops. The functions here answer on a list of tokens, whose end is the end of the file.

Brackets are counted, not matched: any of `)`, `]` and the closing brace closes the last bracket
that is open, whichever it is.
-/

namespace ClassSugar.Lookahead

open ClassSugar.Text

/-- Whether the token opens a bracket. -/
def isOpen (t : Token) : Bool :=
  t.isPunct "(" || t.isPunct "[" || t.isPunct "\x7b"

/-- Whether the token closes a bracket. -/
def isClose (t : Token) : Bool :=
  t.isPunct ")" || t.isPunct "]" || t.isPunct "\x7d"

/-- Whether the first of the tokens passes a test. -/
def startsWith (test : Token → Bool) (ts : List Token) : Bool :=
  ts.head?.any test

/-- Whether the first token is this operator or bracket. -/
def atPunct (text : String) (ts : List Token) : Bool :=
  startsWith (·.isPunct text) ts

/-- Whether the first token is this word. -/
def atWord (word : String) (ts : List Token) : Bool :=
  startsWith (·.isIdent word) ts

/-- Whether the first token is an identifier or keyword. -/
def atIdent (ts : List Token) : Bool :=
  startsWith (fun t => t.ident?.isSome) ts

/-! ### Bracket groups -/

/-- What follows when `depth` open brackets are closed. A bracket that closes nothing ends the
search. -/
def closeGroup (depth : Nat) : (ts : List Token) → Option (Tail ts)
  | [] => none
  | t :: r =>
    if isOpen t then
      (closeGroup (depth + 1) r).map (·.cons t)
    else if isClose t then
      match depth with
      | 0 => none
      | 1 => some (Tail.one t r)
      | depth + 2 => (closeGroup (depth + 1) r).map (·.cons t)
    else
      (closeGroup depth r).map (·.cons t)

/-- What follows the bracket group that starts here. -/
def skipGroup (ts : List Token) : Option (Tail ts) :=
  closeGroup 0 ts

/-! ### Types -/

/-- The keywords that name types. -/
def typeKeywords : List String :=
  ["bool", "byte", "char", "decimal", "double", "float", "int", "long", "object", "sbyte",
   "short", "string", "uint", "ulong", "ushort", "void"]

/-- Whether a token can start the name of a type. -/
def startsTypeName (t : Token) : Bool :=
  match t.ident? with
  | some word => !Identifier.isReserved word || typeKeywords.contains word
  | none => false

/-- What follows the commas at the start, and the bracket after them. -/
def arrayRankRest : (ts : List Token) → Option (Tail ts)
  | [] => none
  | t :: r =>
    if t.isPunct "," then (arrayRankRest r).map (·.cons t)
    else if t.isPunct "]" then some (Tail.one t r)
    else none

/-- What follows the marks after a type: `?` and array brackets, which hold commas only. -/
def typeSuffixRest (ts : List Token) : List Token :=
  match ts with
  | [] => []
  | t :: r =>
    if t.isPunct "?" then
      typeSuffixRest r
    else if t.isPunct "[" then
      match arrayRankRest r with
      | some rank => typeSuffixRest rank.rest
      | none => t :: r
    else
      t :: r
termination_by ts.length
decreasing_by
  · simp
  · have := rank.shorter
    simp
    omega

theorem typeSuffixRest_suffix (ts : List Token) : typeSuffixRest ts <:+ ts := by
  induction ts using typeSuffixRest.induct with
  | case1 => simp [typeSuffixRest]
  | case2 t r hq ih =>
    rw [typeSuffixRest]
    simp only [hq, ↓reduceIte]
    exact ih.trans (List.suffix_cons t r)
  | case3 t r hq hb rank hrank ih =>
    rw [typeSuffixRest]
    simp only [hq, hb, hrank, ↓reduceIte, Bool.false_eq_true]
    exact ih.trans (rank.isSuffix.trans (List.suffix_cons t r))
  | case4 t r hq hb hrank =>
    rw [typeSuffixRest]
    simp [hq, hb, hrank]
  | case5 t r hq hb =>
    rw [typeSuffixRest]
    simp [hq, hb]

/-- The rest after the marks that follow a type. -/
def withSuffix {ts : List Token} (t : Tail ts) : Tail ts where
  rest := typeSuffixRest t.rest
  isSuffix := (typeSuffixRest_suffix t.rest).trans t.isSuffix
  shorter := Nat.lt_of_le_of_lt (typeSuffixRest_suffix t.rest).length_le t.shorter

mutual

/-- What follows the type that starts here: a tuple, or a name that may start with an alias, and
after either its marks. -/
def typeRest (ts : List Token) : Option (Tail ts) :=
  match ts with
  | [] => none
  | t :: r =>
    if t.isPunct "(" then
      (typesRest true ")" r).map fun u => withSuffix (u.cons t)
    else if startsTypeName t then
      match r with
      | u :: v :: r' =>
        if u.isPunct "::" && v.ident?.isSome then
          (nameRest v r').map fun w => withSuffix ((w.cons u).cons t)
        else
          (nameRest t (u :: v :: r')).map withSuffix
      | r => (nameRest t r).map withSuffix
    else
      none
termination_by 3 * ts.length + 1
decreasing_by all_goals simp only [List.length_cons]; omega

/-- What follows a list of types and the bracket that closes it. In a tuple each type may have a
name. -/
def typesRest (named : Bool) (closing : String) (ts : List Token) : Option (Tail ts) :=
  (typeRest ts).bind fun t =>
    let skipped := if named && atIdent t.rest then 1 else 0
    match h : t.rest.drop skipped with
    | [] => none
    | u :: r =>
      have isSuffix : u :: r <:+ ts := (h ▸ List.drop_suffix skipped t.rest).trans t.isSuffix
      have shorter : (u :: r).length < ts.length :=
        Nat.lt_of_le_of_lt (h ▸ List.drop_suffix skipped t.rest).length_le t.shorter
      let here : Tail ts := ⟨u :: r, isSuffix, shorter⟩
      if u.isPunct "," then
        (typesRest named closing r).map fun w => here.into (w.cons u)
      else if u.isPunct closing then
        some (here.into (Tail.one u r))
      else
        none
termination_by 3 * ts.length + 2
decreasing_by
  · omega
  · simp only [List.length_cons] at shorter
    omega

/-- What follows a name whose first part is the identifier `t`: its type arguments, and more parts
after dots. -/
def nameRest (t : Token) (r : List Token) : Option (Tail (t :: r)) :=
  match r with
  | [] => some (Tail.one t [])
  | u :: r =>
    if u.isPunct "<" then
      (typesRest false ">" r).bind fun args =>
        (partsRest args.rest).map fun parts =>
          Tail.ofSuffix t (parts.property.trans (args.isSuffix.trans (List.suffix_cons u r)))
    else
      (partsRest (u :: r)).map fun parts => Tail.ofSuffix t parts.property
termination_by 3 * r.length + 3
decreasing_by
  · simp only [List.length_cons]
    omega
  · have := args.shorter
    simp only [List.length_cons]
    omega
  · omega

/-- What follows the parts of a name after dots. -/
def partsRest (ts : List Token) : Option { rest : List Token // rest <:+ ts } :=
  match ts with
  | u :: v :: r =>
    if u.isPunct "." && v.ident?.isSome then
      (nameRest v r).map fun w => ⟨w.rest, w.isSuffix.trans (List.suffix_cons u (v :: r))⟩
    else
      some ⟨u :: v :: r, List.suffix_refl _⟩
  | ts => some ⟨ts, List.suffix_refl _⟩
termination_by 3 * ts.length
decreasing_by
  simp only [List.length_cons]
  omega

end

/-! ### Where a construct ends -/

/-- Why a construct has no end. -/
inductive Endless where
  /-- The file ends. -/
  | atEnd
  /-- A bracket closes nothing. -/
  | atBracket (t : Token)

/-- The number of tokens before the first one outside of brackets that passes the test. With
`angles` set, `<` and `>` are brackets too. -/
def countUntil (angles : Bool) (stop : Token → Bool) (depth : Nat) :
    List Token → Except Endless Nat
  | [] => .error .atEnd
  | t :: r =>
    if depth = 0 ∧ stop t then
      .ok 0
    else if isOpen t || (angles && t.isPunct "<") then
      (countUntil angles stop (depth + 1) r).map (· + 1)
    else if isClose t || (angles && t.isPunct ">") then
      match depth with
      | 0 => .error (.atBracket t)
      | depth + 1 => (countUntil angles stop depth r).map (· + 1)
    else
      (countUntil angles stop depth r).map (· + 1)

/-- Whether a statement that just closed its last brace ends before these tokens: an operator after
the brace would go on with the expression. -/
def endsAfterBrace : List Token → Bool
  | [] => true
  | t :: _ => t.isWord || t.isPunct "\x7b" || t.isPunct "\x7d" || t.isPunct "["

/-- Whether a statement goes on with the branch that starts here. -/
def startsBranch (ts : List Token) : Bool :=
  atWord "else" ts || atWord "catch" ts || atWord "finally" ts

/-- The number of tokens of the statement that starts here. `loop` tells that it started with `do`
and its `while` is still to come. -/
def statementLength (loop : Bool) (depth : Nat) : List Token → Except Endless Nat
  | [] => .error .atEnd
  | t :: r =>
    if isOpen t then
      (statementLength loop (depth + 1) r).map (· + 1)
    else if isClose t && depth == 0 then
      .error (.atBracket t)
    else
      let depth := if isClose t then depth - 1 else depth
      let ended := depth == 0 &&
        (if isClose t then t.isPunct "\x7d" && endsAfterBrace r else t.isPunct ";")
      if ended && !startsBranch r then
        if loop && atWord "while" r then
          (statementLength false depth r).map (· + 1)
        else
          .ok 1
      else
        (statementLength loop depth r).map (· + 1)

/-- Why a construct kept as written has no end. -/
inductive RawEndless where
  | atEnd
  /-- A closing brace stands where the construct still has to end. -/
  | atBrace (t : Token)
  /-- A bracket is never closed. -/
  | unclosed (t : Token)

/-- The rest after a construct kept as written: up to a semicolon, or up to the end of a group in
braces and the semicolon after it. -/
def rawRest (ts : List Token) : Except RawEndless (Tail ts) :=
  match ts with
  | [] => .error .atEnd
  | t :: r =>
    if t.isPunct ";" then
      .ok (Tail.one t r)
    else if t.isPunct "\x7d" then
      .error (.atBrace t)
    else if isOpen t then
      match skipGroup (t :: r) with
      | none => .error (.unclosed t)
      | some group =>
        if t.isPunct "\x7b" then
          match h : group.rest with
          | u :: r' =>
            if u.isPunct ";" then
              .ok (group.into ⟨r', h ▸ List.suffix_cons u r', by rw [h]; simp⟩)
            else
              .ok group
          | [] => .ok group
        else
          (rawRest group.rest).map group.into
    else
      (rawRest r).map (·.cons t)
termination_by ts.length
decreasing_by
  · exact group.shorter
  · simp

end ClassSugar.Lookahead
