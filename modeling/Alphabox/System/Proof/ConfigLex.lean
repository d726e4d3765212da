import Alphabox.System.Configurator

/-!
# Lexing a laid-out text

A text is laid out as tokens with white space and comments in the gaps before them. `next` passes a
gap whatever is in it and gives the token behind it with its place in the text; a gap that ends in
something else is refused there.
-/

namespace Alphabox.System

/-! ## Places -/

/-- The line after `pre`: its line feeds are counted. -/
def lineOf (pre : Bytes) : Nat := 1 + pre.count 0x0a

/-- The column after `pre`. -/
def colOf (pre : Bytes) : Nat := 1 + (pre.reverse.takeWhile (· != 0x0a)).length

/-! ## Gaps -/

/-- What may stand between two tokens: white space, the two kinds of line comment with the byte that
ends them, and a block comment. -/
inductive GapPiece where
  | white (c : UInt8)
  | line (text : Bytes) (eol : UInt8)
  | semi (text : Bytes) (eol : UInt8)
  | block (text : Bytes)

/-- The end of a block comment is not in a text. -/
def noClose : Bytes → Bool
  | [] => true
  | c :: rest => !(c == 0x2a && rest.head? == some 0x2f) && noClose rest

/-- No line ends in a text. -/
def oneLine (text : Bytes) : Bool := text.all fun c => !isEol c

namespace GapPiece

def bytes : GapPiece → Bytes
  | white c => [c]
  | line text eol => 0x2f :: 0x2f :: (text ++ [eol])
  | semi text eol => 0x3b :: (text ++ [eol])
  | block text => 0x2f :: 0x2a :: (text ++ [0x2a, 0x2f])

/-- A piece of a gap where the line has a token, or has none. -/
def Ok (hasToken : Bool) : GapPiece → Prop
  | white c => isSpace c = true
  | line text eol => oneLine text = true ∧ isEol eol = true
  | semi text eol => hasToken = false ∧ oneLine text = true ∧ isEol eol = true
  | block text => noClose text = true

end GapPiece

/-- Whether the line has a token, after some bytes that hold none. -/
def tokenAfter (hasToken : Bool) (bs : Bytes) : Bool := hasToken && !bs.contains 0x0a

abbrev Gap : Type := List GapPiece

namespace Gap

def bytes (g : Gap) : Bytes := g.flatMap GapPiece.bytes

def Ok : Bool → Gap → Prop
  | _, [] => True
  | hasToken, p :: g => p.Ok hasToken ∧ Gap.Ok (tokenAfter hasToken p.bytes) g

end Gap

/-! ## Tokens -/

/-- A token as it is written. -/
structure Tok where
  kind : TokenKind
  text : Bytes
  deriving DecidableEq

/-- The quotes of a value doubled. -/
def doubled (v : Bytes) : Bytes := v.flatMap fun c => if c = 0x22 then [0x22, 0x22] else [c]

/-- A byte that may stand in a quoted value. -/
def isQuotable (c : UInt8) : Bool := !isEol c && c != 0x00

namespace Tok

def bytes (t : Tok) : Bytes :=
  match t.kind with
  | .word => t.text
  | .string => 0x22 :: (doubled t.text ++ [0x22])
  | .equals => [0x3d]
  | .semicolon => [0x3b]
  | .openBrace => [0x7b]
  | .closeBrace => [0x7d]
  | .endOfText => []

/-- A token that can be written. -/
def Ok (t : Tok) : Prop :=
  match t.kind with
  | .word => t.text ≠ [] ∧ t.text.all isWordChar = true
  | .string => t.text.all isQuotable = true
  | .endOfText => False
  | _ => t.text = []

/-- A token does not run on into the bytes behind it. -/
def Ends (t : Tok) (rest : Bytes) : Prop :=
  match t.kind with
  | .word => ∀ c, rest.head? = some c → isWordChar c = false
  | .string => rest.head? ≠ some 0x22
  | _ => True

def placedAt (t : Tok) (pre : Bytes) : ConfigToken := ⟨t.kind, t.text, lineOf pre, colOf pre⟩

end Tok

namespace ConfigLexer

variable {l l' : ConfigLexer} {pre bs cs rest text : Bytes} {c : UInt8}

/-! ## Moving on -/

/-- The lexer behind `bs`, before `rest`. -/
def moved (l : ConfigLexer) : Bytes → Bytes → ConfigLexer
  | [], rest => { l with rest }
  | c :: bs, rest => (l.past c (bs ++ rest)).moved bs rest

/-- The lexer stands behind `pre`. -/
structure At (l : ConfigLexer) (pre : Bytes) : Prop where
  line : l.line = lineOf pre
  col : l.col = colOf pre

@[simp] theorem rest_moved : (l.moved bs rest).rest = rest := by
  induction bs generalizing l with
  | nil => rfl
  | cons c bs ih => exact ih

@[simp] theorem placed_moved : (l.moved bs rest).placed = l.placed := by
  induction bs generalizing l with
  | nil => rfl
  | cons c bs ih => exact ih

theorem moved_append : l.moved (bs ++ cs) rest = (l.moved bs (cs ++ rest)).moved cs rest := by
  induction bs generalizing l with
  | nil =>
    cases cs with
    | nil => rfl
    | cons c cs => rfl
  | cons c bs ih =>
    rw [List.cons_append, moved, moved, ih, List.append_assoc]

theorem moved_self (h : l.rest = rest) : l.moved [] rest = l := by
  subst h
  rfl

theorem At.past (h : l.At pre) : (l.past c rest).At (pre ++ [c]) := by
  obtain ⟨hl, hc⟩ := h
  constructor
  · simp only [ConfigLexer.past, lineOf, List.count_append, List.count_singleton, hl]
    by_cases he : c = 0x0a <;> simp [he, Nat.add_assoc]
  · simp only [ConfigLexer.past, colOf, hc, List.reverse_append, List.reverse_singleton,
      List.singleton_append, List.takeWhile_cons]
    by_cases he : c = 0x0a <;> simp [he, Nat.add_assoc]

theorem At.moved (h : l.At pre) : (l.moved bs rest).At (pre ++ bs) := by
  induction bs generalizing l pre with
  | nil =>
    rw [List.append_nil]
    exact ⟨h.line, h.col⟩
  | cons c bs ih =>
    have := ih (@At.past l pre (bs ++ rest) c h)
    rwa [List.append_assoc] at this

theorem hasToken_moved : (l.moved bs rest).lineHasToken = tokenAfter l.lineHasToken bs := by
  induction bs generalizing l with
  | nil => simp [ConfigLexer.moved, tokenAfter]
  | cons c bs ih =>
    rw [ConfigLexer.moved, ih, tokenAfter, tokenAfter, ConfigLexer.past]
    by_cases he : c = 0x0a
    · simp [he]
    · simp [he, Ne.symm he]

/-! ## The loops -/

theorem oneLine_cons : oneLine (c :: text) = true ↔ isEol c = false ∧ oneLine text = true := by
  simp [oneLine]

theorem skipLine_moved (h : oneLine text = true) {eol : UInt8} (he : isEol eol = true) :
    l.skipLine (text ++ eol :: rest) = l.moved text (eol :: rest) := by
  induction text generalizing l with
  | nil => simp [skipLine, he, moved]
  | cons c text ih =>
    obtain ⟨hc, ht⟩ := oneLine_cons.mp h
    rw [List.cons_append, skipLine, hc, if_neg Bool.false_ne_true, ih ht, moved]

/-- A comment that the text ends in. -/
theorem skipLine_end (h : oneLine text = true) : l.skipLine text = l.moved text [] := by
  induction text generalizing l with
  | nil => rfl
  | cons c text ih =>
    obtain ⟨hc, ht⟩ := oneLine_cons.mp h
    rw [skipLine, hc, if_neg Bool.false_ne_true, ih ht, moved, List.append_nil]

theorem noClose_cons : noClose (c :: text) = true ↔
    ¬ (c = 0x2a ∧ text.head? = some 0x2f) ∧ noClose text = true := by
  simp [noClose]
  exact fun _ => imp_iff_not_or.symm

theorem scanBlock_moved (h : noClose text = true) :
    l.scanBlock (text ++ 0x2a :: 0x2f :: rest) = l.moved text (0x2a :: 0x2f :: rest) := by
  induction text generalizing l with
  | nil => simp [scanBlock, moved]
  | cons c text ih =>
    obtain ⟨hc, ht⟩ := noClose_cons.mp h
    have hn : ¬ (c = 0x2a ∧ (text ++ 0x2a :: 0x2f :: rest).head? = some 0x2f) := by
      cases text with
      | nil => simp
      | cons d text => exact hc
    rw [List.cons_append, scanBlock, if_neg hn, ih ht, moved]

/-- A comment that is not closed. -/
theorem scanBlock_end (h : noClose text = true) : (l.scanBlock text).rest = [] := by
  induction text generalizing l with
  | nil => rfl
  | cons c text ih =>
    obtain ⟨hc, ht⟩ := noClose_cons.mp h
    rw [scanBlock, if_neg hc, ih ht]

theorem readWord_moved (h : text.all isWordChar = true)
    (hr : ∀ c, rest.head? = some c → isWordChar c = false) :
    l.readWord (text ++ rest) = (text, l.moved text rest) := by
  induction text generalizing l with
  | nil =>
    cases rest with
    | nil => rfl
    | cons c rest => simp [readWord, hr c rfl, moved]
  | cons c text ih =>
    simp only [List.all_cons, Bool.and_eq_true] at h
    rw [List.cons_append, readWord, if_pos h.1, ih h.2, moved]

theorem isQuotable_iff : isQuotable c = true ↔ isEol c = false ∧ c ≠ 0x00 := by
  simp [isQuotable]

theorem readString_plain {line col : Nat} {s : Bytes} (h : isQuotable c = true) (hq : c ≠ 0x22) :
    readString line col l s (c :: rest) =
      readString line col (l.past c rest) (s ++ [c]) rest := by
  obtain ⟨he, h0⟩ := isQuotable_iff.mp h
  rw [readString.eq_def]
  simp only [he, h0, hq, Bool.false_eq_true, if_false]

theorem readString_doubled {line col : Nat} {s : Bytes} (h : text.all isQuotable = true) :
    readString line col l s (doubled text ++ rest) =
      readString line col (l.moved (doubled text) rest) (s ++ text) rest := by
  induction text generalizing l s with
  | nil =>
    rw [List.append_nil]
    cases rest with
    | nil => simp [doubled, readString, fail]
    | cons d rest =>
      show readString line col l s (d :: rest) =
        readString line col { l with rest := d :: rest } s (d :: rest)
      unfold readString
      rfl
  | cons c text ih =>
    simp only [List.all_cons, Bool.and_eq_true] at h
    by_cases hq : c = 0x22
    · subst hq
      have := @ih ((l.past 0x22 (0x22 :: (doubled text ++ rest))).past 0x22
        (doubled text ++ rest)) (s ++ [0x22]) h.2
      rw [List.append_assoc] at this
      simpa [doubled, readString, isEol, moved] using this
    · have := @ih (l.past c (doubled text ++ rest)) (s ++ [c]) h.2
      rw [List.append_assoc] at this
      have hd : doubled (c :: text) = c :: doubled text := by simp [doubled, hq]
      rw [hd, List.cons_append, readString_plain h.1 hq, this]
      rfl

theorem readString_moved {line col : Nat} {s : Bytes} (h : text.all isQuotable = true)
    (hr : rest.head? ≠ some 0x22) :
    readString line col l s (doubled text ++ 0x22 :: rest) =
      .ok (s ++ text, l.moved (doubled text ++ [0x22]) rest) := by
  rw [readString_doubled h, moved_append]
  cases rest with
  | nil => rfl
  | cons d rest =>
    have hd : d ≠ 0x22 := fun hd => hr (by rw [hd]; rfl)
    simp [readString, isEol, hd, moved, past]

/-! ## A gap -/

theorem next_again (h : l.turn = .again l') : l.next = l'.next := by
  rw [next]
  split
  · rename_i h'
    rw [h] at h'
    rw [Turn.again.inj h']
  · rename_i h'
    rw [h] at h'
    cases h'

theorem next_done {r : Except ConfigStop (ConfigToken × ConfigLexer)} (h : l.turn = .done r) :
    l.next = r := by
  rw [next]
  split
  · rename_i h'
    rw [h] at h'
    cases h'
  · rename_i h'
    rw [h] at h'
    exact (Turn.done.inj h').symm

theorem next_white (hr : l.rest = c :: rest) (hc : isSpace c = true) :
    l.next = (l.past c rest).next := by
  refine next_again ?_
  rw [turn, hr]
  exact if_pos hc

/-- A line comment, up to what ends it. -/
theorem next_skipLine (hr : l.rest = c :: rest) (hc : isSpace c = false)
    (h : (c = 0x2f ∧ rest.head? = some 0x2f) ∨ (c = 0x3b ∧ l.lineHasToken = false)) :
    l.next = (l.skipLine (c :: rest)).next := by
  refine next_again ?_
  rw [turn, hr]
  simp only [hc, Bool.false_eq_true, if_false]
  exact if_pos h

/-- A line comment with the byte that ends it. -/
theorem next_comment (hr : l.rest = c :: (text ++ rest)) (hc : isSpace c = false)
    {eol : UInt8} (ht : oneLine (c :: text) = true) (he : isEol eol = true)
    (hrest : rest = eol :: cs)
    (h : (c = 0x2f ∧ (text ++ rest).head? = some 0x2f) ∨ (c = 0x3b ∧ l.lineHasToken = false)) :
    l.next = (l.moved (c :: (text ++ [eol])) cs).next := by
  have hs : isSpace eol = true := by
    simp only [isEol, Bool.or_eq_true, beq_iff_eq] at he
    obtain rfl | rfl := he <;> decide
  subst hrest
  rw [next_skipLine hr hc h, ← List.cons_append, skipLine_moved ht he,
    @next_white _ cs _ rest_moved hs, ← List.cons_append, moved_append]
  rfl

theorem advance_of (h : l.rest = c :: rest) : l.advance = .ok (l.past c rest) := by
  rw [advance, h]

theorem skipBlock_of {d : UInt8} (h : l.rest = c :: d :: rest) :
    l.skipBlock = (let l3 := ((l.past c (d :: rest)).past d rest).scanBlock rest
      if l3.rest = [] then fail l.line l.col .commentOpen
      else do
        let l4 ← l3.advance
        l4.advance) := by
  rw [skipBlock, advance_of h]
  rfl

/-- A block comment. -/
theorem skipBlock_moved (hr : l.rest = 0x2f :: 0x2a :: (text ++ 0x2a :: 0x2f :: rest))
    (h : noClose text = true) :
    l.skipBlock = .ok (l.moved (0x2f :: 0x2a :: (text ++ [0x2a, 0x2f])) rest) := by
  have hb : l.moved (0x2f :: 0x2a :: (text ++ [0x2a, 0x2f])) rest =
      (((l.past 0x2f (0x2a :: (text ++ 0x2a :: 0x2f :: rest))).past 0x2a
        (text ++ 0x2a :: 0x2f :: rest)).moved text (0x2a :: 0x2f :: rest)).moved
        [0x2a, 0x2f] rest := by
    simp [moved, moved_append]
  rw [skipBlock_of hr, scanBlock_moved h, hb]
  generalize hl : moved _ text _ = l3
  have hr3 : l3.rest = 0x2a :: 0x2f :: rest := by
    rw [← hl]
    exact rest_moved
  show (if l3.rest = [] then _ else _) = _
  rw [hr3, if_neg (List.cons_ne_nil _ _), advance_of hr3]
  rfl

/-- A piece of a gap. -/
theorem next_piece {p : GapPiece} (hr : l.rest = p.bytes ++ rest) (h : p.Ok l.lineHasToken) :
    l.next = (l.moved p.bytes rest).next := by
  cases p with
  | white c => exact next_white hr h
  | line text eol =>
    have ht : oneLine (0x2f :: 0x2f :: text) = true := by
      rw [oneLine_cons, oneLine_cons]
      exact ⟨by decide, by decide, h.1⟩
    refine @next_comment l rest (eol :: rest) (0x2f :: text) 0x2f ?_ (by decide) eol ht h.2 rfl
      (.inl ⟨rfl, rfl⟩)
    rw [hr]
    simp [GapPiece.bytes]
  | semi text eol =>
    obtain ⟨hf, ht, he⟩ := h
    refine @next_comment l rest (eol :: rest) text 0x3b ?_ (by decide) eol
      (oneLine_cons.mpr ⟨by decide, ht⟩) he rfl (.inr ⟨rfl, hf⟩)
    rw [hr]
    simp [GapPiece.bytes]
  | block text =>
    refine next_again ?_
    have hb : l.rest = 0x2f :: 0x2a :: (text ++ 0x2a :: 0x2f :: rest) := by
      rw [hr]
      simp [GapPiece.bytes]
    rw [turn, hb]
    simp only [skipBlock_moved hb h, List.head?_cons]
    rfl

/-- A gap. -/
theorem next_gap {g : Gap} (hr : l.rest = g.bytes ++ rest) (h : g.Ok l.lineHasToken) :
    l.next = (l.moved g.bytes rest).next := by
  induction g generalizing l with
  | nil =>
    have hr0 : l.rest = rest := hr
    rw [show Gap.bytes [] = [] from rfl, moved_self hr0]
  | cons p g ih =>
    have hb : Gap.bytes (p :: g) = p.bytes ++ Gap.bytes g := rfl
    rw [hb, List.append_assoc] at hr
    rw [next_piece hr h.1, ih rest_moved (by rw [hasToken_moved]; exact h.2), hb, moved_append]

/-! ## A token -/

/-- The lexer on a line with a token. -/
def onToken (l : ConfigLexer) : ConfigLexer := { l with lineHasToken := true }

theorem isSpace_of_isWordChar (h : isWordChar c = true) : isSpace c = false := by
  by_contra hs
  simp only [isSpace, Bool.not_eq_false, Bool.or_eq_true, beq_iff_eq] at hs
  obtain ((((rfl | rfl) | rfl) | rfl) | rfl) | rfl := hs <;> exact absurd h (by decide)

theorem ne_of_isWordChar (h : isWordChar c = true) {d : UInt8} (hd : isWordChar d = false) :
    c ≠ d := by
  rintro rfl
  rw [h] at hd
  exact nomatch hd

/-- The loop of `next` is done at the first byte of a token. -/
theorem turn_token (hr : l.rest = c :: rest) (hs : isSpace c = false)
    (hl : c ≠ 0x2f) (hsemi : c = 0x3b → l.lineHasToken = true) : l.turn = .done (l.readToken c) := by
  rw [turn, hr]
  simp only [hs, Bool.false_eq_true, if_false]
  have h1 : ¬ ((c = 0x2f ∧ rest.head? = some 0x2f) ∨ (c = 0x3b ∧ l.lineHasToken = false)) := by
    rintro (⟨h, _⟩ | ⟨h, hf⟩)
    · exact hl h
    · rw [hsemi h] at hf
      exact nomatch hf
  rw [if_neg h1, if_neg fun h => hl h.1]

theorem token_placed (hp : l.placed = true) (h : l.At pre) (kind : TokenKind) (text : Bytes) :
    l.token kind l.line l.col text = (Tok.mk kind text).placedAt pre := by
  simp only [token, hp, if_true, Tok.placedAt, h.line, h.col]

/-- A token of one byte. -/
theorem next_byte {kind : TokenKind} (hr : l.rest = c :: rest) (hs : isSpace c = false)
    (hl : c ≠ 0x2f) (hsemi : c = 0x3b → l.lineHasToken = true)
    (ht : l.readToken c = l.onToken.advance >>= fun l1 =>
      .ok (l.token kind l.line l.col [], l1)) (hp : l.placed = true) (ha : l.At pre) :
    l.next = .ok ((Tok.mk kind []).placedAt pre, l.onToken.moved [c] rest) := by
  have hr0 : l.onToken.rest = c :: rest := hr
  rw [next_done (turn_token hr hs hl hsemi), ht, advance_of hr0, token_placed hp ha]
  rfl

theorem readToken_word (hc : isWordChar c = true) :
    l.readToken c = .ok (l.token .word l.line l.col (l.onToken.readWord l.rest).1,
      (l.onToken.readWord l.rest).2) := by
  have hd : ∀ d, isWordChar d = false → c ≠ d := fun d => ne_of_isWordChar hc
  rw [readToken, if_neg (hd _ (by decide)), if_neg (hd _ (by decide)),
    if_neg (hd _ (by decide)), if_neg (hd _ (by decide)), if_neg (hd _ (by decide)), if_pos hc]
  rfl

theorem next_word (hr : l.rest = text ++ rest) (hne : text ≠ []) (hw : text.all isWordChar = true)
    (he : ∀ c, rest.head? = some c → isWordChar c = false) (hp : l.placed = true) (ha : l.At pre) :
    l.next = .ok ((Tok.mk .word text).placedAt pre, l.onToken.moved text rest) := by
  obtain ⟨c, w, rfl⟩ := List.exists_cons_of_ne_nil hne
  have hc : isWordChar c = true := by
    rw [List.all_cons, Bool.and_eq_true] at hw
    exact hw.1
  have hcs : l.rest = c :: (w ++ rest) := hr
  have hd : ∀ d, isWordChar d = false → c ≠ d := fun d => ne_of_isWordChar hc
  rw [next_done (turn_token hcs (isSpace_of_isWordChar hc) (hd _ (by decide))
    fun h => absurd h (hd _ (by decide))), readToken_word hc, hr, readWord_moved hw he,
    token_placed hp ha]

theorem readToken_quote (hr : l.rest = 0x22 :: rest) : l.readToken 0x22 =
    (readString l.line l.col (l.onToken.past 0x22 rest) [] rest >>= fun r =>
      .ok (l.token .string l.line l.col r.1, r.2)) := by
  have hr0 : l.onToken.rest = 0x22 :: rest := hr
  have h : l.readToken 0x22 = (l.onToken.advance >>= fun l1 =>
      readString l.line l.col l1 [] l1.rest >>= fun r =>
        .ok (l.token .string l.line l.col r.1, r.2)) := rfl
  rw [h, advance_of hr0]
  rfl

theorem next_string (hr : l.rest = 0x22 :: (doubled text ++ 0x22 :: rest))
    (hq : text.all isQuotable = true) (he : rest.head? ≠ some 0x22) (hp : l.placed = true)
    (ha : l.At pre) : l.next = .ok ((Tok.mk .string text).placedAt pre,
      l.onToken.moved (0x22 :: (doubled text ++ [0x22])) rest) := by
  rw [next_done (turn_token hr (by decide) (by decide) fun h => absurd h (by decide)),
    readToken_quote hr, readString_moved hq he, ← token_placed hp ha, moved, List.append_assoc]
  rfl

/-- A token. -/
theorem next_token {t : Tok} (hr : l.rest = t.bytes ++ rest) (h : t.Ok) (he : t.Ends rest)
    (hf : t.kind = .semicolon → l.lineHasToken = true) (hp : l.placed = true) (ha : l.At pre) :
    l.next = .ok (t.placedAt pre, l.onToken.moved t.bytes rest) := by
  obtain ⟨kind, text⟩ := t
  cases kind with
  | word => exact next_word hr h.1 h.2 he hp ha
  | string =>
    refine next_string ?_ h he hp ha
    rw [hr]
    simp [Tok.bytes]
  | semicolon =>
    obtain rfl : text = [] := h
    exact next_byte hr (by decide) (by decide) (fun _ => hf rfl) rfl hp ha
  | equals =>
    obtain rfl : text = [] := h
    exact next_byte hr (by decide) (by decide) (fun h => absurd h (by decide)) rfl hp ha
  | openBrace =>
    obtain rfl : text = [] := h
    exact next_byte hr (by decide) (by decide) (fun h => absurd h (by decide)) rfl hp ha
  | closeBrace =>
    obtain rfl : text = [] := h
    exact next_byte hr (by decide) (by decide) (fun h => absurd h (by decide)) rfl hp ha
  | endOfText => exact absurd h id

end ConfigLexer

end Alphabox.System
