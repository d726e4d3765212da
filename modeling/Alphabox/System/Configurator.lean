import Alphabox.Lib.Numerals
import Mathlib.Data.List.Basic

/-!
# The configuration language (`system/Configurator.cpp`)

`CConfigLexer` splits a text into tokens, one at each call of `next`; `CConfigurator::parse` reads
the statements of a section and, calling itself, of the sections in it. Both stop at the first
thing that is not in the language. A text is a list of bytes; the lexer holds what is left of it.

What the parser prints about names used twice is left out.
-/

namespace Alphabox.System

abbrev Bytes : Type := List UInt8

/-- `CFG_MAX_DEPTH`. -/
abbrev cfgMaxDepth : Nat := 16

/-- `CFG_MAX_NAME`. -/
abbrev cfgMaxName : Nat := 255

/-! ## Tokens -/

inductive TokenKind where
  | word | string | equals | semicolon | openBrace | closeBrace | endOfText
  deriving DecidableEq

/-- `CConfigToken`. Its place is line 0 in a text the emulator wrote itself. -/
structure ConfigToken where
  kind : TokenKind
  text : Bytes
  line : Nat
  col : Nat
  deriving DecidableEq

/-- What a text is refused for. -/
inductive ConfigError where
  /-- "the comment opened here is not closed (no */)" -/
  | commentOpen
  /-- "the quoted value opened here is not closed" -/
  | quoteOpen
  /-- "the quoted value opened here does not end on its line" -/
  | quoteLine
  /-- "Illegal character NUL in a quoted value" -/
  | quoteNul
  /-- "Illegal character": which one. -/
  | illegal (c : UInt8)
  /-- "the section ... is not closed": its name and value. -/
  | notClosed (name value : Bytes)
  /-- "'}' closes no section" -/
  | closesNothing
  /-- "expected a name, found ..." -/
  | expectedName (found : ConfigToken)
  /-- "a name longer than 255 characters" -/
  | longName
  /-- "expected '=' after ..., found ..." -/
  | expectedEquals (name : Bytes) (found : ConfigToken)
  /-- "expected a value or a class after '... =', found ..." -/
  | expectedValue (name : Bytes) (found : ConfigToken)
  /-- "expected ';' after the value of ..., found ...", with a hint where two words follow each
  other. -/
  | expectedSemicolon (name : Bytes) (found : ConfigToken) (spaces : Bool)
  /-- "a class name longer than 255 characters" -/
  | longClass
  /-- "sections nested more than 16 deep" -/
  | tooDeep
  deriving DecidableEq

/-- How reading a text stops short. -/
inductive ConfigStop where
  /-- `fail`: the place and the error. -/
  | refused (line col : Nat) (e : ConfigError)
  /-- A byte past the end was looked at. -/
  | pastEnd
  /-- The turns given to `parse` were not enough. -/
  | outOfFuel
  deriving DecidableEq

/-! ## The lexer -/

/-- `CConfigLexer`: `rest` is the text from `p` to `end`. -/
structure ConfigLexer where
  rest : Bytes
  placed : Bool
  line : Nat
  col : Nat
  /-- A `;` after a token on its line ends a value. -/
  lineHasToken : Bool
  deriving DecidableEq

/-- Space, tab, CR, LF, form feed and vertical tab. -/
def isSpace (c : UInt8) : Bool :=
  c == 0x20 || c == 0x09 || c == 0x0d || c == 0x0a || c == 0x0c || c == 0x0b

/-- `is_word_char`. -/
def isWordChar (c : UInt8) : Bool :=
  (0x61 ≤ c && c ≤ 0x7a) || (0x41 ≤ c && c ≤ 0x5a) || (0x30 ≤ c && c ≤ 0x39) || c == 0x5f ||
    c == 0x2e

/-- LF and CR. -/
def isEol (c : UInt8) : Bool := c == 0x0a || c == 0x0d

namespace ConfigLexer

variable (l : ConfigLexer)

/-- The lexer of a text; a byte order mark at the start of a file is skipped. -/
def ofText (text : Bytes) (placed : Bool) : ConfigLexer where
  rest := if placed && text.take 3 == [0xef, 0xbb, 0xbf] then text.drop 3 else text
  placed
  line := 1
  col := 1
  lineHasToken := false

def token (kind : TokenKind) (line col : Nat) (text : Bytes) : ConfigToken :=
  ⟨kind, text, if l.placed then line else 0, if l.placed then col else 0⟩

def fail {α : Type} (line col : Nat) (e : ConfigError) : Except ConfigStop α :=
  .error (.refused line col e)

/-- The lexer past the byte `c`, before `rest`. -/
def past (c : UInt8) (rest : Bytes) : ConfigLexer :=
  { l with
    rest
    line := if c = 0x0a then l.line + 1 else l.line
    col := if c = 0x0a then 1 else l.col + 1
    lineHasToken := if c = 0x0a then false else l.lineHasToken }

/-- `advance`. -/
def advance : Except ConfigStop ConfigLexer :=
  match l.rest with
  | [] => .error .pastEnd
  | c :: rest => .ok (l.past c rest)

/-- The rest of the line, from the start of a comment: CR or LF ends it. -/
def skipLine (l : ConfigLexer) : Bytes → ConfigLexer
  | [] => { l with rest := [] }
  | c :: rest => if isEol c then { l with rest := c :: rest } else skipLine (l.past c rest) rest

/-- To the end of a block comment, or of the text. -/
def scanBlock (l : ConfigLexer) : Bytes → ConfigLexer
  | [] => { l with rest := [] }
  | c :: rest =>
    if c = 0x2a ∧ rest.head? = some 0x2f then { l with rest := c :: rest }
    else scanBlock (l.past c rest) rest

/-- A block comment. -/
def skipBlock : Except ConfigStop ConfigLexer := do
  let l1 ← l.advance
  let l2 ← l1.advance
  let l3 := l2.scanBlock l2.rest
  if l3.rest = [] then fail l.line l.col .commentOpen
  else
    let l4 ← l3.advance
    l4.advance

/-- A quoted value from behind its first quote on, with what it has so far; `line` and `col` are
where it was opened. -/
def readString (line col : Nat) (l : ConfigLexer) (s : Bytes) :
    Bytes → Except ConfigStop (Bytes × ConfigLexer)
  | [] => fail line col .quoteOpen
  | c :: rest =>
    if isEol c then fail line col .quoteLine
    else if c = 0x00 then fail l.line l.col .quoteNul
    else if c = 0x22 then
      match rest with
      | [] => .ok (s, l.past c [])
      | d :: rest' =>
        if d = 0x22 then
          readString line col ((l.past c (d :: rest')).past d rest') (s ++ [0x22]) rest'
        else .ok (s, l.past c (d :: rest'))
    else readString line col (l.past c rest) (s ++ [c]) rest

/-- A word. -/
def readWord (l : ConfigLexer) : Bytes → Bytes × ConfigLexer
  | [] => ([], { l with rest := [] })
  | c :: rest =>
    if isWordChar c then
      let r := readWord (l.past c rest) rest
      (c :: r.1, r.2)
    else ([], { l with rest := c :: rest })

/-- A token that starts with the byte `c`, the next one. -/
def readToken (c : UInt8) : Except ConfigStop (ConfigToken × ConfigLexer) :=
  let l0 := { l with lineHasToken := true }
  let one (kind : TokenKind) : Except ConfigStop (ConfigToken × ConfigLexer) := do
    let l1 ← l0.advance
    return (l.token kind l.line l.col [], l1)
  if c = 0x3d then one .equals
  else if c = 0x3b then one .semicolon
  else if c = 0x7b then one .openBrace
  else if c = 0x7d then one .closeBrace
  else if c = 0x22 then do
    let l1 ← l0.advance
    let (s, l2) ← readString l.line l.col l1 [] l1.rest
    return (l.token .string l.line l.col s, l2)
  else if isWordChar c then
    let r := l0.readWord l0.rest
    return (l.token .word l.line l.col r.1, r.2)
  else fail l.line l.col (.illegal c)

/-- One turn of the loop of `next`: it goes on from another place, or is done. -/
inductive Turn where
  | again (l : ConfigLexer)
  | done (r : Except ConfigStop (ConfigToken × ConfigLexer))

def turn : Turn :=
  match l.rest with
  | [] => .done (.ok (l.token .endOfText l.line l.col [], l))
  | c :: rest =>
    if isSpace c then .again (l.past c rest)
    else if (c = 0x2f ∧ rest.head? = some 0x2f) ∨ (c = 0x3b ∧ l.lineHasToken = false) then
      .again (l.skipLine (c :: rest))
    else if c = 0x2f ∧ rest.head? = some 0x2a then
      match l.skipBlock with
      | .ok l' => .again l'
      | .error e => .done (.error e)
    else .done (l.readToken c)

/-! ### The loop of `next` ends -/

variable {l}

theorem length_skipLine (bs : Bytes) (l : ConfigLexer) :
    (l.skipLine bs).rest.length ≤ bs.length := by
  induction bs generalizing l with
  | nil => exact Nat.le_refl 0
  | cons c bs ih =>
    rw [skipLine]
    split
    · exact Nat.le_refl _
    · exact Nat.le_trans (ih _) (Nat.le_succ _)

theorem length_scanBlock (bs : Bytes) (l : ConfigLexer) :
    (l.scanBlock bs).rest.length ≤ bs.length := by
  induction bs generalizing l with
  | nil => exact Nat.le_refl 0
  | cons c bs ih =>
    rw [scanBlock]
    split
    · exact Nat.le_refl _
    · exact Nat.le_trans (ih _) (Nat.le_succ _)

theorem length_advance {l' : ConfigLexer} (h : l.advance = .ok l') :
    l'.rest.length + 1 = l.rest.length := by
  unfold advance at h
  split at h
  · exact nomatch h
  · rename_i c rest hr
    obtain rfl := Except.ok.inj h
    rw [hr]
    rfl

theorem bind_ok {ε α β : Type} {x : Except ε α} {f : α → Except ε β} {b : β}
    (h : (x >>= f) = .ok b) : ∃ a, x = .ok a ∧ f a = .ok b := by
  cases x with
  | error e => exact nomatch h
  | ok a => exact ⟨a, rfl, h⟩

theorem length_skipBlock {l' : ConfigLexer} (h : l.skipBlock = .ok l') :
    l'.rest.length < l.rest.length := by
  obtain ⟨l1, h1, h⟩ := bind_ok h
  obtain ⟨l2, h2, h⟩ := bind_ok h
  simp only at h
  split at h
  · exact nomatch h
  · obtain ⟨l4, h4, h⟩ := bind_ok h
    have := length_advance h1
    have := length_advance h2
    have := length_scanBlock l2.rest l2
    have := length_advance h4
    have := length_advance h
    omega

theorem length_turn {l' : ConfigLexer} (h : l.turn = .again l') :
    l'.rest.length < l.rest.length := by
  unfold turn at h
  split at h
  · exact nomatch h
  · rename_i c rest hr
    rw [hr, List.length_cons]
    split at h
    · obtain rfl := Turn.again.inj h
      exact Nat.lt_succ_self _
    · split at h
      · rename_i hc
        obtain rfl := Turn.again.inj h
        have he : isEol c = false := by obtain ⟨rfl, _⟩ | ⟨rfl, _⟩ := hc <;> decide
        rw [skipLine, he]
        exact Nat.lt_succ_of_le (length_skipLine rest _)
      · split at h
        · split at h
          · rename_i hb
            obtain rfl := Turn.again.inj h
            have := length_skipBlock hb
            rwa [hr, List.length_cons] at this
          · exact nomatch h
        · exact nomatch h

/-- `next`. -/
def next (l : ConfigLexer) : Except ConfigStop (ConfigToken × ConfigLexer) :=
  match _h : l.turn with
  | .again l' => next l'
  | .done r => r
termination_by l.rest.length
decreasing_by exact length_turn _h

end ConfigLexer

/-! ## The parser -/

/-- `SCfg_Value`. -/
structure ConfigValue where
  name : Bytes
  value : Bytes
  line : Nat
  col : Nat
  deriving DecidableEq

/-- A section below the master: its name, its class, where it is, and what it holds in order. -/
inductive ConfigSection where
  | mk (name value : Bytes) (line col : Nat) (values : List ConfigValue)
    (children : List ConfigSection)

/-- What `parse` fills in: `pValues` and `pChildren`. -/
structure ConfigBody where
  values : List ConfigValue
  children : List ConfigSection

/-- The section that `parse` is in: the master, one that the emulator adds, or one in a text. -/
inductive ConfigOwner where
  | master
  | added
  | inText (name value : Bytes) (line col : Nat)

open ConfigLexer (fail)

/-- `parse`, in at most `fuel` turns and calls, for a section `depth` deep that holds `body` so
far. -/
def parse : Nat → ConfigLexer → ConfigOwner → Nat → ConfigBody →
    Except ConfigStop (ConfigBody × ConfigLexer)
  | 0, _, _, _, _ => .error .outOfFuel
  | fuel + 1, lex, owner, depth, body => do
    let (t, lex) ← lex.next
    match t.kind with
    | .endOfText =>
      match owner with
      | .inText name value line col => fail line col (.notClosed name value)
      | _ => return (body, lex)
    | .closeBrace =>
      match owner with
      | .master => fail t.line t.col .closesNothing
      | _ => return (body, lex)
    | .semicolon => parse fuel lex owner depth body
    | .word =>
      if cfgMaxName < t.text.length then fail t.line t.col .longName
      else
        let (eq, lex) ← lex.next
        if eq.kind ≠ .equals then fail eq.line eq.col (.expectedEquals t.text eq)
        else
          let (v, lex) ← lex.next
          if v.kind ≠ .word ∧ v.kind ≠ .string then
            fail v.line v.col (.expectedValue t.text v)
          else
            let (after, lex) ← lex.next
            if after.kind = .semicolon then
              parse fuel lex owner depth
                { body with values := body.values ++ [⟨t.text, v.text, t.line, t.col⟩] }
            else if after.kind ≠ .openBrace then
              fail after.line after.col (.expectedSemicolon t.text after
                (decide (v.kind = .word ∧ after.kind = .word)))
            else if cfgMaxName < v.text.length then fail v.line v.col .longClass
            else if cfgMaxDepth < depth + 1 then fail t.line t.col .tooDeep
            else
              let (child, lex) ← parse fuel lex (.inText t.text v.text t.line t.col) (depth + 1)
                ⟨[], []⟩
              parse fuel lex owner depth
                { body with children := body.children ++
                    [.mk t.text v.text t.line t.col child.values child.children] }
    | _ => fail t.line t.col (.expectedName t)

/-- The constructor of the master: a configuration file. -/
def parseText (text : Bytes) : Except ConfigStop ConfigBody := do
  let (body, _) ← parse (text.length + 1) (.ofText text true) .master 0 ⟨[], []⟩
  return body

end Alphabox.System
