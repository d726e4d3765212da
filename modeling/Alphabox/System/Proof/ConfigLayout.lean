import Alphabox.System.Proof.ConfigLex

/-!
# Texts and the tokens in them

Every call of `next` refuses the text or gets nearer to its end. `Feeds` says which tokens come one
after the other; a `Layout` is a text whose tokens are known, and `feeds_items` says that `next`
gives just those, each with its place.
-/

namespace Alphabox.System

/-- A text is refused, at a place and for a reason. -/
def ConfigStop.IsRefusal : ConfigStop → Prop
  | .refused .. => True
  | _ => False

namespace ConfigLexer

variable {l l' l'' : ConfigLexer} {pre bs rest text : Bytes} {c : UInt8}

/-! ## Each call ends -/

/-- `next` has refused the text or given a token, with at most `n` bytes left, less behind a token
that is in the text. -/
def Stops (n : Nat) : Except ConfigStop (ConfigToken × ConfigLexer) → Prop
  | .error e => e.IsRefusal
  | .ok (t, l') => l'.rest.length ≤ n ∧ (t.kind ≠ .endOfText → l'.rest.length < n)

theorem Stops.mono {n m : Nat} {r : Except ConfigStop (ConfigToken × ConfigLexer)}
    (h : Stops n r) (hnm : n ≤ m) : Stops m r := by
  cases r with
  | error e => exact h
  | ok r => exact ⟨Nat.le_trans h.1 hnm, fun hk => Nat.lt_of_lt_of_le (h.2 hk) hnm⟩

theorem scanBlock_cases (bs : Bytes) (l : ConfigLexer) :
    (l.scanBlock bs).rest = [] ∨ ∃ r, (l.scanBlock bs).rest = 0x2a :: 0x2f :: r := by
  induction bs generalizing l with
  | nil => exact .inl rfl
  | cons c bs ih =>
    rw [scanBlock]
    split
    · rename_i h
      obtain ⟨rfl, hh⟩ := h
      cases bs with
      | nil => cases hh
      | cons d bs =>
        obtain rfl := Option.some.inj hh
        exact .inr ⟨bs, rfl⟩
    · exact ih _

theorem skipBlock_error {d : UInt8} {e : ConfigStop} (hr : l.rest = c :: d :: rest)
    (h : l.skipBlock = .error e) : e.IsRefusal := by
  rw [skipBlock_of hr] at h
  generalize hs : scanBlock _ rest = l3 at h
  have hc := scanBlock_cases rest ((l.past c (d :: rest)).past d rest)
  rw [hs] at hc
  obtain h3 | ⟨r, h3⟩ := hc
  · simp only [h3, if_true] at h
    obtain rfl := Except.error.inj h
    trivial
  · have h' : (l3.advance >>= fun l4 => l4.advance) = .error e := by
      simpa only [h3, reduceCtorEq, if_false] using h
    rw [advance_of h3] at h'
    cases h'

theorem readString_stops {line col : Nat} (s : Bytes) (l : ConfigLexer) (bs : Bytes) :
    match readString line col l s bs with
    | .error e => e.IsRefusal
    | .ok r => r.2.rest.length ≤ bs.length := by
  fun_induction readString line col l s bs with
  | case1 => trivial
  | case2 => trivial
  | case3 => trivial
  | case4 => exact Nat.zero_le _
  | case5 l s rest' _ _ ih =>
    split at ih
    · exact ih
    · exact Nat.le_trans ih (Nat.le_add_right _ 2)
  | case6 => exact Nat.le_succ _
  | case7 l s c rest _ _ _ ih =>
    split at ih
    · exact ih
    · exact Nat.le_succ_of_le ih

theorem length_readWord (bs : Bytes) (l : ConfigLexer) :
    (l.readWord bs).2.rest.length ≤ bs.length := by
  induction bs generalizing l with
  | nil => exact Nat.le_refl 0
  | cons c bs ih =>
    rw [readWord]
    split
    · exact Nat.le_succ_of_le (ih _)
    · exact Nat.le_refl _

theorem readToken_stops (hr : l.rest = c :: rest) : Stops l.rest.length (l.readToken c) := by
  have hr0 : l.onToken.rest = c :: rest := hr
  have hlen : l.rest.length = rest.length + 1 := by rw [hr, List.length_cons]
  by_cases hq : c = 0x22
  · subst hq
    have hs := @readString_stops l.line l.col [] (l.onToken.past 0x22 rest) rest
    rw [readToken_quote hr]
    generalize readString l.line l.col (l.onToken.past 0x22 rest) [] rest = r at hs
    cases r with
    | error e => exact hs
    | ok r => exact ⟨hlen ▸ Nat.le_succ_of_le hs, fun _ => hlen ▸ Nat.lt_succ_of_le hs⟩
  by_cases hw : isWordChar c = true
  · have hs := length_readWord rest (l.onToken.past c rest)
    rw [readToken_word hw, hr, readWord, if_pos hw]
    exact ⟨Nat.le_succ_of_le hs, fun _ => Nat.lt_succ_of_le hs⟩
  · have hone (kind : TokenKind) : Stops l.rest.length (l.onToken.advance >>= fun l1 =>
        .ok (l.token kind l.line l.col [], l1)) := by
      rw [advance_of hr0, hr]
      exact ⟨Nat.le_succ _, fun _ => Nat.lt_succ_self _⟩
    rw [readToken, if_neg hq, if_neg hw]
    split
    · exact hone .equals
    split
    · exact hone .semicolon
    split
    · exact hone .openBrace
    split
    · exact hone .closeBrace
    · trivial

theorem turn_stops {r : Except ConfigStop (ConfigToken × ConfigLexer)} (h : l.turn = .done r) :
    Stops l.rest.length r := by
  unfold turn at h
  split at h
  · obtain rfl := Turn.done.inj h
    exact ⟨Nat.le_refl _, fun hk => absurd rfl hk⟩
  · rename_i c rest hr
    split at h
    · cases h
    split at h
    · cases h
    split at h
    · rename_i hc
      split at h
      · cases h
      · rename_i hb
        obtain rfl := Turn.done.inj h
        obtain ⟨d, rest', rfl⟩ : ∃ d rest', rest = d :: rest' := by
          cases rest with
          | nil => cases hc.2
          | cons d rest' => exact ⟨d, rest', rfl⟩
        exact skipBlock_error hr hb
    · obtain rfl := Turn.done.inj h
      exact readToken_stops hr

/-- `next` ends, within the text. -/
theorem next_stops (l : ConfigLexer) : Stops l.rest.length l.next := by
  induction hn : l.rest.length using Nat.strongRecOn generalizing l with
  | _ n ih =>
    cases ht : l.turn with
    | again l' =>
      have hlt := length_turn ht
      rw [hn] at hlt
      rw [next_again ht]
      exact (ih _ hlt l' rfl).mono (Nat.le_of_lt hlt)
    | done r =>
      rw [next_done ht, ← hn]
      exact turn_stops ht

theorem next_error {e : ConfigStop} (h : l.next = .error e) : e.IsRefusal := by
  have := next_stops l
  rwa [h] at this

theorem next_le {t : ConfigToken} (h : l.next = .ok (t, l')) :
    l'.rest.length ≤ l.rest.length := by
  have := next_stops l
  rw [h] at this
  exact this.1

theorem next_lt {t : ConfigToken} (h : l.next = .ok (t, l')) (hk : t.kind ≠ .endOfText) :
    l'.rest.length < l.rest.length := by
  have := next_stops l
  rw [h] at this
  exact this.2 hk

/-! ## The tokens of a text -/

/-- `next` gives the tokens `ts`, none of them the end of the text, from `l` on up to `l'`. -/
inductive Feeds : ConfigLexer → List ConfigToken → ConfigLexer → Prop
  | nil (l : ConfigLexer) : Feeds l [] l
  | cons {l l' l'' : ConfigLexer} {t : ConfigToken} {ts : List ConfigToken} :
      l.next = .ok (t, l') → t.kind ≠ .endOfText → Feeds l' ts l'' → Feeds l (t :: ts) l''

/-- `next` gives the end of the text. -/
def AtEnd (l : ConfigLexer) : Prop := ∃ t l', l.next = .ok (t, l') ∧ t.kind = .endOfText

theorem Feeds.single {t : ConfigToken} (h : l.next = .ok (t, l')) (hk : t.kind ≠ .endOfText) :
    Feeds l [t] l' := .cons h hk (.nil l')

theorem Feeds.append {ts us : List ConfigToken} (h : Feeds l ts l') (h' : Feeds l' us l'') :
    Feeds l (ts ++ us) l'' := by
  induction h with
  | nil => exact h'
  | cons hn hk _ ih => exact .cons hn hk (ih h')

theorem Feeds.split {ts us : List ConfigToken} (h : Feeds l (ts ++ us) l'') :
    ∃ l', Feeds l ts l' ∧ Feeds l' us l'' := by
  induction ts generalizing l with
  | nil => exact ⟨l, .nil l, h⟩
  | cons t ts ih =>
    cases h with
    | cons hn hk h =>
      obtain ⟨l', h1, h2⟩ := ih h
      exact ⟨l', .cons hn hk h1, h2⟩

theorem Feeds.length {ts : List ConfigToken} (h : Feeds l ts l') :
    l'.rest.length ≤ l.rest.length := by
  induction h with
  | nil => exact Nat.le_refl _
  | cons hn _ _ ih => exact Nat.le_trans ih (next_le hn)

/-- Where `next` gives no token of the text, that is where every run of tokens ends. -/
theorem Feeds.stops {ts us : List ConfigToken} {m : ConfigLexer} (h : Feeds l ts l')
    (h' : Feeds l us m) (hl : ∀ t n, l'.next = .ok (t, n) → t.kind = .endOfText)
    (hm : ∀ t n, m.next = .ok (t, n) → t.kind = .endOfText) : ts = us ∧ l' = m := by
  induction h generalizing us with
  | nil =>
    cases h' with
    | nil => exact ⟨rfl, rfl⟩
    | cons hn hk _ => exact absurd (hl _ _ hn) hk
  | cons hn hk _ ih =>
    cases h' with
    | nil => exact absurd (hm _ _ hn) hk
    | cons hn' _ h' =>
      rw [hn] at hn'
      obtain ⟨rfl, rfl⟩ := Prod.mk.inj (Except.ok.inj hn')
      obtain ⟨rfl, rfl⟩ := ih h' hl
      exact ⟨rfl, rfl⟩

theorem AtEnd.stops (h : l.AtEnd) : ∀ t n, l.next = .ok (t, n) → t.kind = .endOfText := by
  obtain ⟨t, l', hn, hk⟩ := h
  intro u n hu
  rw [hn] at hu
  obtain ⟨rfl, _⟩ := Prod.mk.inj (Except.ok.inj hu)
  exact hk

/-! ## Laid-out tokens -/

end ConfigLexer

/-- Tokens with the gaps before them. -/
abbrev Items : Type := List (Gap × Tok)

namespace Items

def bytes : Items → Bytes
  | [] => []
  | (g, t) :: xs => g.bytes ++ (t.bytes ++ bytes xs)

/-- The tokens of a text that has `xs` behind `pre`. -/
def placed (pre : Bytes) : Items → List ConfigToken
  | [] => []
  | (g, t) :: xs => t.placedAt (pre ++ g.bytes) :: placed (pre ++ g.bytes ++ t.bytes) xs

/-- The gaps and tokens can stand where they do, before `rest`: no gap and no token runs on into
what is behind it, and before a `;` there is a token on its line. -/
def Fits (hasToken : Bool) : Items → Bytes → Prop
  | [], _ => True
  | (g, t) :: xs, rest => g.Ok hasToken ∧ t.Ok ∧ t.Ends (bytes xs ++ rest) ∧
      (t.kind = .semicolon → tokenAfter hasToken g.bytes = true) ∧ Fits true xs rest

/-- Whether the line has a token behind them. -/
def hasToken (b : Bool) : Items → Bool
  | [] => b
  | _ :: _ => true

end Items

namespace Tok

theorem noLineFeed_doubled {v : Bytes} (h : v.all isQuotable = true) :
    (doubled v).contains 0x0a = false := by
  induction v with
  | nil => rfl
  | cons c v ih =>
    rw [List.all_cons, Bool.and_eq_true] at h
    have hc : c ≠ 0x0a := by
      rintro rfl
      exact absurd h.1 (by decide)
    rw [doubled, List.flatMap_cons]
    have ih := ih h.2
    rw [doubled] at ih
    split
    · simpa using ih
    · simpa [Ne.symm hc] using ih

/-- A token is on one line. -/
theorem noLineFeed {t : Tok} (h : t.Ok) : t.bytes.contains 0x0a = false := by
  obtain ⟨kind, text⟩ := t
  cases kind with
  | word =>
    by_contra hc
    have hm : (0x0a : UInt8) ∈ text := by simpa [Tok.bytes] using hc
    exact absurd (List.all_eq_true.mp h.2 _ hm) (by decide)
  | string =>
    have hd := noLineFeed_doubled h
    simpa [Tok.bytes] using hd
  | endOfText => exact absurd h id
  | _ => rfl

theorem kind_ne_end {t : Tok} (h : t.Ok) : t.kind ≠ .endOfText := by
  obtain ⟨kind, text⟩ := t
  rintro rfl
  exact h

end Tok

namespace ConfigLexer

variable {l : ConfigLexer} {pre rest text : Bytes} {c : UInt8}

/-- The tokens of a text as it is laid out. -/
theorem feeds_items {xs : Items} (hr : l.rest = xs.bytes ++ rest)
    (h : xs.Fits l.lineHasToken rest) (hp : l.placed = true) (ha : l.At pre) :
    ∃ l', Feeds l (xs.placed pre) l' ∧ l'.rest = rest ∧ l'.placed = true ∧
      l'.At (pre ++ xs.bytes) ∧ l'.lineHasToken = xs.hasToken l.lineHasToken := by
  induction xs generalizing l pre with
  | nil => exact ⟨l, .nil l, hr, hp, by rwa [Items.bytes, List.append_nil], rfl⟩
  | cons x xs ih =>
    obtain ⟨g, t⟩ := x
    obtain ⟨hg, ht, he, hf, hxs⟩ := h
    rw [Items.bytes, List.append_assoc, List.append_assoc] at hr
    have hn := next_gap hr hg
    have hp1 : (l.moved g.bytes (t.bytes ++ (Items.bytes xs ++ rest))).placed = true := by
      rw [placed_moved, hp]
    rw [next_token rest_moved ht he (fun hk => by rw [hasToken_moved, hf hk]) hp1 ha.moved] at hn
    generalize hl1 : onToken _ = l1 at hn
    have ha1 : l1.At (pre ++ g.bytes) := by
      have := @At.moved l pre g.bytes (t.bytes ++ (Items.bytes xs ++ rest)) ha
      rw [← hl1]
      exact ⟨this.line, this.col⟩
    have hp1 : l1.placed = true := by rw [← hl1]; exact hp1
    have hf1 : (l1.moved t.bytes (Items.bytes xs ++ rest)).lineHasToken = true := by
      rw [hasToken_moved, ← hl1, tokenAfter, Tok.noLineFeed ht]
      rfl
    obtain ⟨l', hfeed, hr', hp', ha', hf'⟩ := @ih (l1.moved t.bytes (Items.bytes xs ++ rest))
      (pre ++ g.bytes ++ t.bytes) rest_moved (by rwa [hf1]) (by rwa [placed_moved]) ha1.moved
    refine ⟨l', .cons hn (Tok.kind_ne_end ht) hfeed, hr', hp', ?_, ?_⟩
    · rwa [Items.bytes, ← List.append_assoc, ← List.append_assoc]
    · rw [hf', hf1]
      cases xs <;> rfl

end ConfigLexer

/-! ## What a text ends in -/

/-- The comment that a text may end in, before any end of its line. -/
inductive Ending where
  | none
  | line (text : Bytes)
  | semi (text : Bytes)

namespace Ending

def bytes : Ending → Bytes
  | none => []
  | line text => 0x2f :: 0x2f :: text
  | semi text => 0x3b :: text

def Ok (hasToken : Bool) : Ending → Prop
  | none => True
  | line text => oneLine text = true
  | semi text => hasToken = false ∧ oneLine text = true

end Ending

/-- What no token starts with, where a token could start. -/
inductive Fault where
  /-- A quoted value up to the end of the text. -/
  | openQuote (v : Bytes)
  /-- A quoted value up to a byte that may not be in one. -/
  | brokenQuote (v : Bytes) (c : UInt8) (rest : Bytes)
  /-- A block comment up to the end of the text. -/
  | openComment (text : Bytes)
  /-- A byte outside the language. -/
  | illegal (c : UInt8) (rest : Bytes)

/-- A byte that white space or a token starts with. -/
def isLegal (c : UInt8) : Bool :=
  isSpace c || isWordChar c || c == 0x3d || c == 0x3b || c == 0x7b || c == 0x7d || c == 0x22

namespace Fault

def bytes : Fault → Bytes
  | openQuote v => 0x22 :: doubled v
  | brokenQuote v c rest => 0x22 :: (doubled v ++ c :: rest)
  | openComment text => 0x2f :: 0x2a :: text
  | illegal c rest => c :: rest

def Ok : Fault → Prop
  | openQuote v => v.all isQuotable = true
  | brokenQuote v c _ => v.all isQuotable = true ∧ isQuotable c = false
  | openComment text => noClose text = true
  | illegal c rest => isLegal c = false ∧
      (c = 0x2f → rest.head? ≠ some 0x2f ∧ rest.head? ≠ some 0x2a)

end Fault

namespace ConfigLexer

variable {l : ConfigLexer} {pre rest text : Bytes} {c : UInt8}

theorem atEnd_nil (hr : l.rest = []) : l.AtEnd := by
  refine ⟨l.token .endOfText l.line l.col [], l, next_done ?_, rfl⟩
  rw [turn, hr]

theorem atEnd_comment {c : UInt8} (hr : l.rest = c :: text) (hc : isSpace c = false)
    (ht : oneLine (c :: text) = true)
    (h : (c = 0x2f ∧ text.head? = some 0x2f) ∨ (c = 0x3b ∧ l.lineHasToken = false)) :
    l.AtEnd := by
  obtain ⟨t, l', hn, hk⟩ := atEnd_nil (l := l.moved (c :: text) []) rest_moved
  refine ⟨t, l', ?_, hk⟩
  rw [next_skipLine hr hc h, skipLine_end ht, hn]

theorem atEnd_of {g : Gap} {e : Ending} (hr : l.rest = g.bytes ++ e.bytes)
    (hg : g.Ok l.lineHasToken) (he : e.Ok (tokenAfter l.lineHasToken g.bytes)) : l.AtEnd := by
  have hm : (l.moved g.bytes e.bytes).AtEnd := by
    cases e with
    | none => exact atEnd_nil rest_moved
    | line text =>
      refine @atEnd_comment _ (0x2f :: text) 0x2f rest_moved (by decide) ?_
        (.inl ⟨rfl, rfl⟩)
      rw [oneLine_cons, oneLine_cons]
      exact ⟨by decide, by decide, he⟩
    | semi text =>
      obtain ⟨hf, ht⟩ := he
      exact @atEnd_comment _ text 0x3b rest_moved (by decide)
        (oneLine_cons.mpr ⟨by decide, ht⟩) (.inr ⟨rfl, hasToken_moved.trans hf⟩)
  obtain ⟨t, l', hn, hk⟩ := hm
  exact ⟨t, l', (next_gap hr hg).trans hn, hk⟩

/-- A quoted value that is not closed on its line. -/
theorem next_openQuote {v : Bytes} (hr : l.rest = 0x22 :: (doubled v ++ rest))
    (hv : v.all isQuotable = true) (hc : ∀ c, rest.head? = some c → isQuotable c = false) :
    ∃ e, l.next = .error e := by
  rw [next_done (turn_token hr (by decide) (by decide) fun h => absurd h (by decide)),
    readToken_quote hr, readString_doubled hv]
  cases rest with
  | nil => exact ⟨_, rfl⟩
  | cons c rest =>
    have hc := hc c rfl
    rw [readString.eq_def]
    simp only
    split
    · exact ⟨_, rfl⟩
    split
    · exact ⟨_, rfl⟩
    · rename_i he h0
      rw [Bool.not_eq_true] at he
      rw [isQuotable_iff.mpr ⟨he, h0⟩] at hc
      cases hc

theorem next_openComment (hr : l.rest = 0x2f :: 0x2a :: text) (h : noClose text = true) :
    ∃ e, l.next = .error e := by
  have hb : l.skipBlock = .error (.refused l.line l.col .commentOpen) := by
    rw [skipBlock_of hr]
    simp only [scanBlock_end h, if_true]
    rfl
  refine ⟨.refused l.line l.col .commentOpen, next_done ?_⟩
  rw [turn, hr]
  simp only [hb, List.head?_cons]
  rfl

theorem next_illegal (hr : l.rest = c :: rest) (hc : isLegal c = false)
    (hs : c = 0x2f → rest.head? ≠ some 0x2f ∧ rest.head? ≠ some 0x2a) :
    l.next = .error (.refused l.line l.col (.illegal c)) := by
  simp only [isLegal, Bool.or_eq_false_iff, beq_eq_false_iff_ne] at hc
  obtain ⟨⟨⟨⟨⟨⟨hsp, hw⟩, h1⟩, h2⟩, h3⟩, h4⟩, h5⟩ := hc
  have ht : l.turn = .done (l.readToken c) := by
    rw [turn, hr]
    simp only [hsp, Bool.false_eq_true, if_false]
    have hl : ¬ ((c = 0x2f ∧ rest.head? = some 0x2f) ∨ (c = 0x3b ∧ l.lineHasToken = false)) := by
      intro h
      obtain ⟨h, hh⟩ | ⟨h, _⟩ := h
      · exact (hs h).1 hh
      · exact h2 h
    rw [if_neg hl, if_neg fun h => (hs h.1).2 h.2]
  rw [next_done ht, readToken, if_neg h1, if_neg h2, if_neg h3, if_neg h4, if_neg h5, hw,
    if_neg Bool.false_ne_true]
  rfl

/-- `next` refuses what no token starts with. -/
theorem next_fault {g : Gap} {f : Fault} (hr : l.rest = g.bytes ++ f.bytes)
    (hg : g.Ok l.lineHasToken) (hf : f.Ok) : ∃ e, l.next = .error e := by
  rw [next_gap hr hg]
  cases f with
  | openQuote v => exact @next_openQuote _ [] v (by simp [Fault.bytes]) hf nofun
  | brokenQuote v c rest =>
    refine next_openQuote rest_moved hf.1 fun d hd => ?_
    obtain rfl := Option.some.inj hd
    exact hf.2
  | openComment text => exact next_openComment rest_moved hf
  | illegal c rest => exact ⟨_, next_illegal rest_moved hf.1 hf.2⟩

end ConfigLexer

/-! ## Whole texts -/

/-- The mark that a file may start with. -/
def byteOrderMark : Bytes := [0xef, 0xbb, 0xbf]

/-- The lexer before the first token of a file. -/
def start (text : Bytes) : ConfigLexer := ConfigLexer.ofText text true

/-- The tokens of a text are `ts`. -/
def Lexes (text : Bytes) (ts : List ConfigToken) : Prop :=
  ∃ m, (start text).Feeds ts m ∧ m.AtEnd

/-- A text laid out: its tokens with the gaps before them, and what follows the last one. -/
structure Layout where
  items : Items
  gap : Gap
  ending : Ending

namespace Layout

variable (y : Layout)

def bytes : Bytes := y.items.bytes ++ (y.gap.bytes ++ y.ending.bytes)

def tokens : List Tok := y.items.map (·.2)

/-- The tokens with their places. -/
def placed : List ConfigToken := y.items.placed []

def Fits : Prop :=
  y.items.Fits false (y.gap.bytes ++ y.ending.bytes) ∧ y.gap.Ok (y.items.hasToken false) ∧
    y.ending.Ok (tokenAfter (y.items.hasToken false) y.gap.bytes)

end Layout

theorem length_start (text : Bytes) : (start text).rest.length ≤ text.length := by
  rw [start, ConfigLexer.ofText]
  simp only
  split
  · rw [List.length_drop]
    exact Nat.sub_le _ _
  · exact Nat.le_refl _

theorem start_mark {bs : Bytes} : (start (byteOrderMark ++ bs)).rest = bs := rfl

/-- The tokens of a text, its byte order mark apart, as it is laid out. -/
theorem feeds_start {xs : Items} {text rest : Bytes} (hr : (start text).rest = xs.bytes ++ rest)
    (h : xs.Fits false rest) : ∃ m, (start text).Feeds (xs.placed []) m ∧ m.rest = rest ∧
      m.lineHasToken = xs.hasToken false := by
  obtain ⟨m, hf, hm, _, _, ht⟩ := @ConfigLexer.feeds_items _ [] _ _ hr h rfl ⟨rfl, rfl⟩
  exact ⟨m, hf, hm, ht⟩

/-- A text that lexes does not go on with a second byte order mark, or start with a first. -/
theorem start_self {bs : Bytes} {ts : List ConfigToken} {m : ConfigLexer}
    (h : (ConfigLexer.mk bs true 1 1 false).Feeds ts m) (hm : m.AtEnd) : (start bs).rest = bs := by
  have hok : ∃ r, (ConfigLexer.mk bs true 1 1 false).next = .ok r := by
    cases h with
    | nil =>
      obtain ⟨t, l', hn, _⟩ := hm
      exact ⟨_, hn⟩
    | cons hn _ _ => exact ⟨_, hn⟩
  obtain ⟨r, hn⟩ := hok
  rw [start, ConfigLexer.ofText]
  refine if_neg fun hb => ?_
  rw [Bool.true_and, beq_iff_eq] at hb
  cases bs with
  | nil => cases hb
  | cons c rest =>
    obtain rfl : c = 0xef := (List.cons.inj hb).1
    rw [ConfigLexer.next_illegal rfl (by decide) (fun h => absurd h (by decide))] at hn
    cases hn

namespace Layout

variable {y : Layout}

theorem lexes_of (h : y.Fits) {text : Bytes} (ht : (start text).rest = y.bytes) :
    Lexes text y.placed := by
  obtain ⟨hx, hg, he⟩ := h
  obtain ⟨m, hf, hm, hflag⟩ := feeds_start ht hx
  rw [← hflag] at hg he
  exact ⟨m, hf, ConfigLexer.atEnd_of hm hg he⟩

theorem start_bytes (h : y.Fits) : (start y.bytes).rest = y.bytes := by
  obtain ⟨hx, hg, he⟩ := h
  obtain ⟨m, hf, hm, _, _, hflag⟩ := @ConfigLexer.feeds_items
    ⟨y.bytes, true, 1, 1, false⟩ [] _ _ rfl hx rfl ⟨rfl, rfl⟩
  rw [← hflag] at hg he
  exact start_self hf (ConfigLexer.atEnd_of hm hg he)

/-- A laid-out text, with a byte order mark or without. -/
theorem lexes (h : y.Fits) {mark : Bytes} (hmark : mark = [] ∨ mark = byteOrderMark) :
    Lexes (mark ++ y.bytes) y.placed := by
  obtain rfl | rfl := hmark
  · exact lexes_of h (start_bytes h)
  · exact lexes_of h start_mark

end Layout

end Alphabox.System
