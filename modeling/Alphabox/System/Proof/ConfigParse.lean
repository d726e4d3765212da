import Alphabox.System.Proof.ConfigLayout

/-!
# Configurations as they are written

`ConfigTree` is what a configuration says: the values and sections of a section in order, with the
sections in each. `parse` gives it back from its tokens (`parse_tree`), with the place of each name.
What it accepts has the words, the ends of statements and the braces that go with each other
(`parse_ok`), so that a text that lacks one is refused.
-/

namespace Alphabox.System

open ConfigLexer

/-! ## Trees -/

/-- The statements of a section. A value, and the class of a section, is a word or is quoted. -/
inductive ConfigTree where
  | nil
  | value (name : Bytes) (v : Tok) (next : ConfigTree)
  | sect (name : Bytes) (cls : Tok) (body next : ConfigTree)

def Tok.equals : Tok := ⟨.equals, []⟩
def Tok.semicolon : Tok := ⟨.semicolon, []⟩
def Tok.openBrace : Tok := ⟨.openBrace, []⟩
def Tok.closeBrace : Tok := ⟨.closeBrace, []⟩

/-- A token that a value can be written as. -/
def Tok.IsValue (v : Tok) : Prop := v.Ok ∧ (v.kind = .word ∨ v.kind = .string)

/-- A word that is not too long for a name. -/
def IsName (name : Bytes) : Prop :=
  name ≠ [] ∧ name.all isWordChar = true ∧ name.length ≤ cfgMaxName

def ConfigToken.tok (t : ConfigToken) : Tok := ⟨t.kind, t.text⟩

namespace ConfigTree

def tokens : ConfigTree → List Tok
  | nil => []
  | value name v next => ⟨.word, name⟩ :: .equals :: v :: .semicolon :: next.tokens
  | sect name cls body next =>
    ⟨.word, name⟩ :: .equals :: cls :: .openBrace :: (body.tokens ++ .closeBrace :: next.tokens)

def depth : ConfigTree → Nat
  | nil => 0
  | value _ _ next => next.depth
  | sect _ _ body next => max (body.depth + 1) next.depth

def Ok : ConfigTree → Prop
  | nil => True
  | value name v next => IsName name ∧ v.IsValue ∧ next.Ok
  | sect name cls body next =>
    IsName name ∧ cls.IsValue ∧ cls.text.length ≤ cfgMaxName ∧ body.Ok ∧ next.Ok

/-- The section that the tree is, its tokens being `ts`: a name's place is its token's. -/
def body : ConfigTree → List ConfigToken → ConfigBody
  | nil, _ => ⟨[], []⟩
  | value name v next, ts =>
    let b := next.body (ts.drop 4)
    ⟨⟨name, v.text, (ts.head?.map (·.line)).getD 0, (ts.head?.map (·.col)).getD 0⟩ :: b.values,
      b.children⟩
  | sect name cls body next, ts =>
    let inner := body.body ((ts.drop 4).take body.tokens.length)
    let b := next.body (ts.drop (4 + (body.tokens.length + 1)))
    ⟨b.values, .mk name cls.text ((ts.head?.map (·.line)).getD 0)
      ((ts.head?.map (·.col)).getD 0) inner.values inner.children :: b.children⟩

end ConfigTree

/-- What `b` holds, and then what `c` holds. -/
def ConfigBody.append (b c : ConfigBody) : ConfigBody :=
  ⟨b.values ++ c.values, b.children ++ c.children⟩

/-! ## One statement -/

section
variable {fuel depth : Nat} {l l1 l2 l3 l4 l5 : ConfigLexer} {owner : ConfigOwner}
  {body child : ConfigBody} {t q v a : ConfigToken}

/-- The tokens of a statement up to what follows its value. -/
structure Starts (l l4 : ConfigLexer) (t v a : ConfigToken) : Prop where
  tokens : ∃ q l1 l2 l3, l.next = .ok (t, l1) ∧ l1.next = .ok (q, l2) ∧ q.kind = .equals ∧
    l2.next = .ok (v, l3) ∧ l3.next = .ok (a, l4)
  name : t.kind = .word
  value : v.kind = .word ∨ v.kind = .string

theorem parse_value (h : Starts l l4 t v a) (ht : t.text.length ≤ cfgMaxName)
    (ha : a.kind = .semicolon) : parse (fuel + 1) l owner depth body =
      parse fuel l4 owner depth
        { body with values := body.values ++ [⟨t.text, v.text, t.line, t.col⟩] } := by
  obtain ⟨q, l1, l2, l3, h1, h2, hq, h3, h4⟩ := h.tokens
  have hv : ¬ (v.kind ≠ .word ∧ v.kind ≠ .string) := by
    obtain hv | hv := h.value <;> simp [hv]
  rw [parse, h1]
  simp only [h.name, Nat.not_lt.mpr ht, if_false, h2, bind, Except.bind, hq, ne_eq, not_true,
    h3, hv, h4, ha, if_true]

theorem parse_sect (h : Starts l l4 t v a) (ht : t.text.length ≤ cfgMaxName)
    (ha : a.kind = .openBrace) (hv : v.text.length ≤ cfgMaxName) (hd : depth + 1 ≤ cfgMaxDepth)
    (hc : parse fuel l4 (.inText t.text v.text t.line t.col) (depth + 1) ⟨[], []⟩ =
      .ok (child, l5)) : parse (fuel + 1) l owner depth body =
      parse fuel l5 owner depth { body with children := body.children ++
        [.mk t.text v.text t.line t.col child.values child.children] } := by
  obtain ⟨q, l1, l2, l3, h1, h2, hq, h3, h4⟩ := h.tokens
  have hv' : ¬ (v.kind ≠ .word ∧ v.kind ≠ .string) := by
    obtain hv | hv := h.value <;> simp [hv]
  rw [parse, h1]
  simp only [h.name, Nat.not_lt.mpr ht, if_false, h2, bind, Except.bind, hq, ne_eq, not_true,
    h3, hv', h4, ha, reduceCtorEq, Nat.not_lt.mpr hv, Nat.not_lt.mpr hd, hc]

end

/-! ## The statements of a tree -/

section
variable {depth : Nat} {l l4 m : ConfigLexer} {ts : List ConfigToken}

/-- The tokens of a statement are fed. -/
theorem feeds_starts {name : Bytes} {v x : Tok} {rest : List Tok} (h : Feeds l ts m)
    (hts : ts.map ConfigToken.tok = ⟨.word, name⟩ :: .equals :: v :: x :: rest)
    (hv : v.IsValue) : ∃ t q w a us l4, ts = t :: q :: w :: a :: us ∧ Starts l l4 t w a ∧
      t.text = name ∧ w.text = v.text ∧ a.kind = x.kind ∧ Feeds l4 us m ∧
      us.map ConfigToken.tok = rest ∧ l4.rest.length < l.rest.length := by
  obtain ⟨t, ts, rfl, ht, hts⟩ := List.map_eq_cons_iff.mp hts
  obtain ⟨q, ts, rfl, hq, hts⟩ := List.map_eq_cons_iff.mp hts
  obtain ⟨w, ts, rfl, hw, hts⟩ := List.map_eq_cons_iff.mp hts
  obtain ⟨a, us, rfl, ha, hus⟩ := List.map_eq_cons_iff.mp hts
  cases h with
  | cons h1 hk1 h =>
  cases h with
  | cons h2 hk2 h =>
  cases h with
  | cons h3 hk3 h =>
  cases h with
  | @cons _ l4 _ _ _ h4 hk4 h =>
    have hwk : w.kind = v.kind := congrArg Tok.kind hw
    refine ⟨t, q, w, a, us, l4, rfl, ⟨⟨q, _, _, _, h1, h2, congrArg Tok.kind hq, h3, h4⟩,
      congrArg Tok.kind ht, hwk ▸ hv.2⟩, congrArg Tok.text ht, congrArg Tok.text hw,
      congrArg Tok.kind ha, h, hus, ?_⟩
    have := next_lt h1 hk1
    have := next_le h2
    have := next_le h3
    have := next_le h4
    omega

theorem ConfigBody.append_assoc (b c d : ConfigBody) :
    (b.append c).append d = b.append (c.append d) := by
  simp [ConfigBody.append]

/-- The tokens of a tree are read as the tree, with enough turns left for what follows. -/
theorem parse_tree {tree : ConfigTree} (owner : ConfigOwner) (fuel : Nat) (b : ConfigBody)
    (hok : tree.Ok) (hd : depth + tree.depth ≤ cfgMaxDepth) (h : Feeds l ts m)
    (hts : ts.map ConfigToken.tok = tree.tokens) (hf : l.rest.length < fuel) :
    ∃ fuel', m.rest.length < fuel' ∧
      parse fuel l owner depth b = parse fuel' m owner depth (b.append (tree.body ts)) := by
  induction tree generalizing depth l m owner ts fuel b with
  | nil =>
    obtain rfl : ts = [] := List.map_eq_nil_iff.mp hts
    cases h
    refine ⟨fuel, hf, ?_⟩
    simp [ConfigTree.body, ConfigBody.append]
  | value name v next ih =>
    obtain ⟨hname, hv, hok⟩ := hok
    obtain ⟨t, q, w, a, us, l4, rfl, hs, rfl, hw, ha, hfeed, hus, hlen⟩ := feeds_starts h hts hv
    obtain ⟨fuel, rfl⟩ : ∃ f, fuel = f + 1 := ⟨fuel - 1, by omega⟩
    rw [parse_value hs hname.2.2 ha]
    obtain ⟨fuel', hf', he⟩ := ih owner fuel
      { b with values := b.values ++ [⟨t.text, w.text, t.line, t.col⟩] } hok hd hfeed hus (by omega)
    refine ⟨fuel', hf', he.trans ?_⟩
    simp [ConfigTree.body, ConfigBody.append, hw]
  | sect name cls body next ihb ihn =>
    obtain ⟨hname, hv, hcls, hokb, hokn⟩ := hok
    rw [ConfigTree.depth] at hd
    obtain ⟨t, q, w, a, us, l4, rfl, hs, rfl, hw, ha, hfeed, hus, hlen⟩ := feeds_starts h hts hv
    obtain ⟨bs, cs, rfl, hbs, hcs⟩ := List.map_eq_append_iff.mp hus
    obtain ⟨c, ns, rfl, hc, hns⟩ := List.map_eq_cons_iff.mp hcs
    obtain ⟨l5, hfb, hfn⟩ := hfeed.split
    cases hfn with
    | @cons _ l6 _ _ _ hn6 hk6 hfn =>
      obtain ⟨fuel, rfl⟩ : ∃ f, fuel = f + 1 := ⟨fuel - 1, by omega⟩
      obtain ⟨f5, hf5, he5⟩ := ihb (.inText t.text w.text t.line t.col) fuel ⟨[], []⟩ hokb
        (by omega : depth + 1 + body.depth ≤ cfgMaxDepth) hfb hbs (by omega)
      obtain ⟨f5, rfl⟩ : ∃ f, f5 = f + 1 := ⟨f5 - 1, by omega⟩
      have hck : c.kind = .closeBrace := congrArg Tok.kind hc
      have hchild : parse fuel l4 (.inText t.text w.text t.line t.col) (depth + 1) ⟨[], []⟩ =
          .ok (body.body bs, l6) := by
        rw [he5, parse, hn6]
        simp [bind, Except.bind, hck, ConfigBody.append, pure, Except.pure]
      have hlen6 := next_lt hn6 hk6
      have hlen5 := hfb.length
      rw [parse_sect hs hname.2.2 ha (hw ▸ hcls) (by omega) hchild]
      obtain ⟨fuel', hf', he⟩ := ihn owner fuel
        { b with children := b.children ++ [.mk t.text w.text t.line t.col
          (body.body bs).values (body.body bs).children] } hokn
        (by omega : depth + next.depth ≤ cfgMaxDepth) hfn hns (by omega)
      refine ⟨fuel', hf', he.trans ?_⟩
      have hbl : body.tokens.length = bs.length := by rw [← hbs, List.length_map]
      have hdrop : (t :: q :: w :: a :: (bs ++ c :: ns)).drop (4 + (body.tokens.length + 1)) =
          ns := by
        rw [hbl, ← List.drop_drop]
        simp
      have htake : ((t :: q :: w :: a :: (bs ++ c :: ns)).drop 4).take body.tokens.length = bs := by
        rw [hbl]
        simp
      rw [ConfigTree.body, hdrop, htake]
      simp [ConfigBody.append, hw]

end

/-! ## What is accepted -/

section
variable {fuel depth n : Nat} {l l' m : ConfigLexer} {owner : ConfigOwner} {b body : ConfigBody}

/-- A call of `parse` has refused the text or given a body, with at most `n` bytes left. -/
def Ends {α : Type} (n : Nat) : Except ConfigStop (α × ConfigLexer) → Prop
  | .error e => e.IsRefusal
  | .ok (_, l') => l'.rest.length ≤ n

theorem Ends.bind {α β : Type} {x : Except ConfigStop (α × ConfigLexer)}
    {f : α × ConfigLexer → Except ConfigStop (β × ConfigLexer)} {k : Nat} (hx : Ends k x)
    (hf : ∀ a l', l'.rest.length ≤ k → x = .ok (a, l') → Ends n (f (a, l'))) :
    Ends n (x >>= f) := by
  cases x with
  | error e => exact hx
  | ok r => exact hf r.1 r.2 hx rfl

theorem next_ends (l : ConfigLexer) : Ends l.rest.length l.next := by
  cases h : l.next with
  | error e => exact next_error h
  | ok r => exact next_le h

/-- `parse` ends, within the text. -/
theorem parse_ends (hf : l.rest.length < fuel) :
    Ends l.rest.length (parse fuel l owner depth body) := by
  induction fuel generalizing l owner depth body with
  | zero => exact absurd hf (Nat.not_lt_zero _)
  | succ fuel ih =>
    refine (next_ends l).bind fun t l1 hl1 h1 => ?_
    have hagain {owner : ConfigOwner} {depth : Nat} {body : ConfigBody} {k : ConfigLexer}
        (hk : t.kind ≠ .endOfText) (hle : k.rest.length ≤ l1.rest.length) :
        Ends k.rest.length (parse fuel k owner depth body) := by
      have := next_lt h1 hk
      exact ih (by omega)
    have hmono {k : ConfigLexer} {r : Except ConfigStop (ConfigBody × ConfigLexer)}
        (hle : k.rest.length ≤ l1.rest.length) (h : Ends k.rest.length r) :
        Ends l.rest.length r := by
      cases r with
      | error e => exact h
      | ok r => exact Nat.le_trans h (Nat.le_trans hle hl1)
    simp only
    cases hk : t.kind with
    | endOfText =>
      cases owner with
      | inText => trivial
      | _ => exact hl1
    | closeBrace =>
      cases owner with
      | master => trivial
      | _ => exact hl1
    | semicolon => exact hmono (Nat.le_refl _) (hagain (by simp [hk]) (Nat.le_refl _))
    | word =>
      simp only
      split
      · trivial
      refine (next_ends l1).bind fun q l2 hl2 _ => ?_
      simp only
      split
      · trivial
      refine (next_ends l2).bind fun v l3 hl3 _ => ?_
      simp only
      split
      · trivial
      refine (next_ends l3).bind fun a l4 hl4 _ => ?_
      have hle4 : l4.rest.length ≤ l1.rest.length := by omega
      simp only
      split
      · exact hmono hle4 (hagain (by simp [hk]) hle4)
      split
      · trivial
      split
      · trivial
      split
      · trivial
      refine (hagain (by simp [hk]) hle4).bind fun child l5 hl5 _ => ?_
      have hle5 : l5.rest.length ≤ l1.rest.length := Nat.le_trans hl5 hle4
      exact hmono hle5 (hagain (by simp [hk]) hle5)
    | _ => trivial

/-- The token that the statements of a section end at. -/
def Closes : ConfigOwner → TokenKind → Prop
  | .master, k => k = .endOfText
  | .inText .., k => k = .closeBrace
  | .added, k => k = .endOfText ∨ k = .closeBrace

/-- What one turn of `parse` has read when it gives a body. -/
theorem parse_cases (h : parse (fuel + 1) l owner depth body = .ok (b, l')) :
    ∃ t l1, l.next = .ok (t, l1) ∧
      (Closes owner t.kind ∧ l1 = l' ∨
        t.kind = .semicolon ∧ parse fuel l1 owner depth body = .ok (b, l') ∨
        ∃ v a l4, Starts l l4 t v a ∧
          (a.kind = .semicolon ∧ (∃ c, parse fuel l4 owner depth c = .ok (b, l')) ∨
            a.kind = .openBrace ∧ ∃ name value line col child l5 c,
              parse fuel l4 (.inText name value line col) (depth + 1) ⟨[], []⟩ = .ok (child, l5) ∧
              parse fuel l5 owner depth c = .ok (b, l'))) := by
  obtain ⟨⟨t, l1⟩, h1, h⟩ := bind_ok h
  refine ⟨t, l1, h1, ?_⟩
  simp only at h
  -- by the token that the turn begins with
  cases hk : t.kind with
  | endOfText =>
    rw [hk] at h
    cases owner with
    | inText => exact nomatch h
    | master =>
      obtain ⟨_, rfl⟩ := Prod.mk.inj (Except.ok.inj h)
      exact .inl ⟨rfl, rfl⟩
    | added =>
      obtain ⟨_, rfl⟩ := Prod.mk.inj (Except.ok.inj h)
      exact .inl ⟨.inl rfl, rfl⟩
  | closeBrace =>
    rw [hk] at h
    cases owner with
    | master => exact nomatch h
    | inText =>
      obtain ⟨_, rfl⟩ := Prod.mk.inj (Except.ok.inj h)
      exact .inl ⟨rfl, rfl⟩
    | added =>
      obtain ⟨_, rfl⟩ := Prod.mk.inj (Except.ok.inj h)
      exact .inl ⟨.inr rfl, rfl⟩
  | semicolon =>
    rw [hk] at h
    exact .inr (.inl ⟨rfl, h⟩)
  | word =>
    rw [hk] at h
    simp only at h
    split at h
    · exact nomatch h
    -- a name, its separator, its value, and what ends the item
    obtain ⟨⟨q, l2⟩, h2, h⟩ := bind_ok h
    simp only at h
    split at h
    · exact nomatch h
    rename_i hq
    obtain ⟨⟨v, l3⟩, h3, h⟩ := bind_ok h
    simp only at h
    split at h
    · exact nomatch h
    rename_i hv
    obtain ⟨⟨a, l4⟩, h4, h⟩ := bind_ok h
    have hs : Starts l l4 t v a :=
      ⟨⟨q, l1, l2, l3, h1, h2, not_not.mp hq, h3, h4⟩, hk, by tauto⟩
    refine .inr (.inr ⟨v, a, l4, hs, ?_⟩)
    simp only at h
    split at h
    · rename_i ha
      exact .inl ⟨ha, _, h⟩
    split at h
    · exact nomatch h
    rename_i ha
    split at h
    · exact nomatch h
    split at h
    · exact nomatch h
    obtain ⟨⟨child, l5⟩, h5, h⟩ := bind_ok h
    exact .inr ⟨not_not.mp ha, _, _, _, _, child, l5, _, h5, h⟩
  | string => rw [hk] at h; exact nomatch h
  | equals => rw [hk] at h; exact nomatch h
  | openBrace => rw [hk] at h; exact nomatch h

/-- The words and values, the ends of statements and the braces that go with each other. -/
structure Balanced (ks : List TokenKind) : Prop where
  words : ks.count .word + ks.count .string = 2 * ks.count .equals
  ends : ks.count .equals ≤ ks.count .semicolon + ks.count .openBrace
  braces : ks.count .openBrace = ks.count .closeBrace

theorem Balanced.append {ks js : List TokenKind} (h : Balanced ks) (h' : Balanced js) :
    Balanced (ks ++ js) := by
  obtain ⟨h1, h2, h3⟩ := h
  obtain ⟨h1', h2', h3'⟩ := h'
  constructor <;> simp only [List.count_append] <;> omega

theorem Balanced.value {k : TokenKind} (h : k = .word ∨ k = .string) :
    Balanced [.word, .equals, k, .semicolon] := by
  obtain rfl | rfl := h <;> exact ⟨by decide, by decide, by decide⟩

theorem Balanced.sect {k : TokenKind} {ks : List TokenKind} (h : k = .word ∨ k = .string)
    (hks : Balanced ks) : Balanced ([.word, .equals, k, .openBrace] ++ ks ++ [.closeBrace]) := by
  obtain ⟨h1, h2, h3⟩ := hks
  obtain rfl | rfl := h <;> constructor <;>
    simp only [List.count_append, List.count_cons, List.count_nil, reduceCtorEq, beq_iff_eq,
      if_true, if_false] <;> omega

theorem Starts.feeds {l4 : ConfigLexer} {t v a : ConfigToken} (h : Starts l l4 t v a)
    (ha : a.kind ≠ .endOfText) :
    ∃ q : ConfigToken, q.kind = .equals ∧ Feeds l [t, q, v, a] l4 := by
  obtain ⟨q, l1, l2, l3, h1, h2, hq, h3, h4⟩ := h.tokens
  refine ⟨q, hq, .cons h1 (by simp [h.name]) (.cons h2 (by simp [hq]) (.cons h3 ?_ (.single h4 ha)))⟩
  obtain hv | hv := h.value <;> simp [hv]

/-- The tokens of what `parse` accepts. -/
theorem parse_ok (h : parse fuel l owner depth body = .ok (b, l')) :
    ∃ ts m t, Feeds l ts m ∧ Balanced (ts.map (·.kind)) ∧ m.next = .ok (t, l') ∧
      Closes owner t.kind := by
  induction fuel generalizing l owner depth body b l' with
  | zero => exact nomatch h
  | succ fuel ih =>
    obtain ⟨t, l1, h1, ⟨hc, rfl⟩ | ⟨hk, h⟩ | ⟨v, a, l4, hs, hrest⟩⟩ := parse_cases h
    · exact ⟨[], l, t, .nil l, ⟨rfl, Nat.le_refl 0, rfl⟩, h1, hc⟩
    · obtain ⟨ts, m, u, hfeed, ⟨hw, he, hb⟩, hu⟩ := ih h
      refine ⟨t :: ts, m, u, .cons h1 (by simp [hk]) hfeed, ?_, hu⟩
      constructor <;> simp only [List.map_cons, hk, List.count_cons, beq_iff_eq, reduceCtorEq,
        if_true, if_false] <;> omega
    · obtain ⟨ha, c, h⟩ | ⟨ha, name, value, line, col, child, l5, c, hchild, h⟩ := hrest
      · obtain ⟨q, hq, hf4⟩ := hs.feeds (by simp [ha])
        obtain ⟨ts, m, u, hfeed, hbal, hu⟩ := ih h
        refine ⟨_, m, u, hf4.append hfeed, ?_, hu⟩
        rw [List.map_append]
        refine Balanced.append ?_ hbal
        simpa only [List.map_cons, List.map_nil, hs.name, hq, ha] using Balanced.value hs.value
      · obtain ⟨q, hq, hf4⟩ := hs.feeds (by simp [ha])
        obtain ⟨cs, m5, u5, hfeed5, hbal5, hu5, hc5⟩ := ih hchild
        obtain ⟨ts, m, u, hfeed, hbal, hu⟩ := ih h
        have hclose : u5.kind = .closeBrace := hc5
        have hf5 := (hf4.append hfeed5).append (.single hu5 (by simp [hclose]))
        refine ⟨_, m, u, hf5.append hfeed, ?_, hu⟩
        rw [List.map_append]
        refine Balanced.append ?_ hbal
        simpa only [List.map_append, List.map_cons, List.map_nil, hs.name, hq, ha, hclose] using
          Balanced.sect hs.value hbal5

end

/-! ## Whole texts -/

/-- A text is refused, with the place of the error. -/
def Refused (text : Bytes) : Prop := ∃ line col e, parseText text = .error (.refused line col e)

/-- The tokens `ts` lack an end of a statement, an `=` or a `}` of `us`, or have a `}` more. Two words
on the two sides of what is missing may have become one. -/
inductive Broken (us : List Tok) : List Tok → Prop
  | missing {xs ys : List Tok} {t : Tok} : us = xs ++ t :: ys →
      t = .semicolon ∨ t = .equals ∨ t = .closeBrace → Broken us (xs ++ ys)
  | joined {xs ys : List Tok} {t : Tok} {v w : Bytes} :
      us = xs ++ ⟨.word, v⟩ :: t :: ⟨.word, w⟩ :: ys →
      t = .semicolon ∨ t = .equals → Broken us (xs ++ ⟨.word, v ++ w⟩ :: ys)
  | extra {xs ys : List Tok} : us = xs ++ ys → Broken us (xs ++ .closeBrace :: ys)

variable {text : Bytes} {ts : List ConfigToken} {tree : ConfigTree}

theorem parseText_ends (text : Bytes) : (∃ b, parseText text = .ok b) ∨ Refused text := by
  have h := @parse_ends (text.length + 1) 0 (start text) .master ⟨[], []⟩
    (Nat.lt_succ_of_le (length_start text))
  rw [start] at h
  rw [Refused, parseText]
  generalize parse _ _ _ _ _ = r at h
  cases r with
  | ok r => exact .inl ⟨r.1, rfl⟩
  | error e =>
    cases e with
    | refused line col e => exact .inr ⟨line, col, e, rfl⟩
    | _ => exact absurd h id

/-- The tokens of an accepted text. -/
theorem parseText_ok {b : ConfigBody} (h : parseText text = .ok b) :
    ∃ ts, Lexes text ts ∧ Balanced (ts.map (·.kind)) := by
  obtain ⟨⟨c, l'⟩, h, _⟩ := bind_ok h
  obtain ⟨ts, m, t, hf, hbal, hm, hk⟩ := parse_ok h
  exact ⟨ts, ⟨m, hf, t, l', hm, hk⟩, hbal⟩

theorem Lexes.unique {us : List ConfigToken} (h : Lexes text ts) (h' : Lexes text us) : ts = us := by
  obtain ⟨m, hf, hm⟩ := h
  obtain ⟨n, hg, hn⟩ := h'
  exact (hf.stops hg hm.stops hn.stops).1

theorem refused_of_not_balanced (h : Lexes text ts) (hb : ¬ Balanced (ts.map (·.kind))) :
    Refused text := by
  obtain ⟨b, hok⟩ | hr := parseText_ends text
  · obtain ⟨us, hus, hbal⟩ := parseText_ok hok
    rw [h.unique hus] at hb
    exact absurd hbal hb
  · exact hr

theorem refused_of_error {m : ConfigLexer} (h : (start text).Feeds ts m)
    (hm : ∃ e, m.next = .error e) : Refused text := by
  obtain ⟨b, hok⟩ | hr := parseText_ends text
  · obtain ⟨us, ⟨n, hg, hn⟩, _⟩ := parseText_ok hok
    obtain ⟨e, he⟩ := hm
    obtain ⟨_, rfl⟩ := h.stops hg (fun t l' hl => by rw [he] at hl; exact nomatch hl) hn.stops
    obtain ⟨t, l', hl, _⟩ := hn
    rw [he] at hl
    exact nomatch hl
  · exact hr

/-- In the tokens of a tree, each statement has just what it needs. -/
theorem count_tokens (h : tree.Ok) :
    (tree.tokens.map (·.kind)).count .word + (tree.tokens.map (·.kind)).count .string =
        2 * (tree.tokens.map (·.kind)).count .equals ∧
      (tree.tokens.map (·.kind)).count .equals =
        (tree.tokens.map (·.kind)).count .semicolon + (tree.tokens.map (·.kind)).count .openBrace ∧
      (tree.tokens.map (·.kind)).count .openBrace =
        (tree.tokens.map (·.kind)).count .closeBrace := by
  induction tree with
  | nil => exact ⟨rfl, rfl, rfl⟩
  | value name v next ih =>
    obtain ⟨_, ⟨_, hv⟩, hok⟩ := h
    obtain ⟨h1, h2, h3⟩ := ih hok
    obtain hv | hv := hv <;> refine ⟨?_, ?_, ?_⟩ <;>
      simp [ConfigTree.tokens, Tok.equals, Tok.semicolon, hv] <;> omega
  | sect name cls body next ihb ihn =>
    obtain ⟨_, ⟨_, hv⟩, _, hb, hn⟩ := h
    obtain ⟨b1, b2, b3⟩ := ihb hb
    obtain ⟨n1, n2, n3⟩ := ihn hn
    obtain hv | hv := hv <;> refine ⟨?_, ?_, ?_⟩ <;>
      simp [ConfigTree.tokens, Tok.equals, Tok.openBrace, Tok.closeBrace,
        List.count_append, hv] <;> omega

theorem Broken.not_balanced (h : tree.Ok) {us : List Tok} (hb : Broken tree.tokens us) :
    ¬ Balanced (us.map (·.kind)) := by
  obtain ⟨h1, h2, h3⟩ := count_tokens h
  intro ⟨k1, k2, k3⟩
  cases hb with
  | missing he ht =>
    rw [he] at h1 h2 h3
    obtain rfl | rfl | rfl := ht <;>
      simp [Tok.equals, Tok.semicolon, Tok.closeBrace, List.count_append]
        at h1 h2 h3 k1 k2 k3 <;> omega
  | joined he ht =>
    rw [he] at h1 h2 h3
    obtain rfl | rfl := ht <;>
      simp [Tok.equals, Tok.semicolon, List.count_append]
        at h1 h2 h3 k1 k2 k3 <;> omega
  | extra he =>
    rw [he] at h1 h2 h3
    simp [Tok.closeBrace, List.count_append] at h1 h2 h3 k1 k2 k3
    omega

/-- A laid-out tree is read as the tree. -/
theorem parseText_tree {text : Bytes} (h : Lexes text ts) (hok : tree.Ok)
    (hd : tree.depth ≤ cfgMaxDepth) (hts : ts.map ConfigToken.tok = tree.tokens) :
    parseText text = .ok (tree.body ts) := by
  obtain ⟨m, hf, t, l', hm, hk⟩ := h
  have hlen : (start text).rest.length < text.length + 1 := Nat.lt_succ_of_le (length_start text)
  obtain ⟨fuel, hfuel, he⟩ := parse_tree .master _ ⟨[], []⟩ hok
    (by omega : 0 + tree.depth ≤ cfgMaxDepth) hf hts hlen
  obtain ⟨fuel, rfl⟩ : ∃ f, fuel = f + 1 := ⟨fuel - 1, by omega⟩
  rw [parseText, ← start, he, parse, hm]
  simp [bind, Except.bind, hk, ConfigBody.append, pure, Except.pure]

theorem Items.tok_placed {xs : Items} {pre : Bytes} :
    (xs.placed pre).map ConfigToken.tok = xs.map (·.2) := by
  induction xs generalizing pre with
  | nil => rfl
  | cons x xs ih => exact congrArg _ ih

/-- The configuration language. A text laid out in any way, with a byte order mark or without, has
just its tokens, each on its line; laid out from a tree, it is read as the tree. Every text is read
or refused, within its bytes; it is refused when its tokens are a tree's but for a `;`, an `=` or a
`}` that is missing or a `}` too many, and when a quoted value or a comment is not closed, or a byte
stands in it that nothing starts with. -/
theorem config_round_trip :
    (∀ y : Layout, y.Fits → ∀ mark, mark = [] ∨ mark = byteOrderMark →
      Lexes (mark ++ y.bytes) y.placed ∧
      ∀ tree : ConfigTree, tree.Ok → tree.depth ≤ cfgMaxDepth → y.tokens = tree.tokens →
        parseText (mark ++ y.bytes) = .ok (tree.body y.placed)) ∧
    (∀ text, (∃ b, parseText text = .ok b) ∨ Refused text) ∧
    (∀ (tree : ConfigTree) (text : Bytes) (ts : List ConfigToken), tree.Ok → Lexes text ts →
      Broken tree.tokens (ts.map ConfigToken.tok) → Refused text) ∧
    ∀ (xs : Items) (g : Gap) (f : Fault) (text : Bytes), f.Ok →
      (start text).rest = xs.bytes ++ (g.bytes ++ f.bytes) →
      xs.Fits false (g.bytes ++ f.bytes) → g.Ok (xs.hasToken false) → Refused text := by
  refine ⟨fun y hy mark hmark => ?_, parseText_ends, fun tree text ts hok hlex hb => ?_,
    fun xs g f text hf hr hx hg => ?_⟩
  · have hlex := Layout.lexes hy hmark
    refine ⟨hlex, fun tree hok hd ht => parseText_tree hlex hok hd ?_⟩
    rw [Layout.placed, Items.tok_placed]
    exact ht
  · refine refused_of_not_balanced hlex ?_
    have := hb.not_balanced hok
    rwa [List.map_map] at this
  · obtain ⟨m, hfeed, hm, hflag⟩ := feeds_start hr hx
    rw [← hflag] at hg
    exact refused_of_error hfeed (next_fault hm hg hf)

/-- A section on the second line, behind a comment, with a value on the third that has a quote in it,
and a comment at the end of the text. -/
def sampleLayout : Layout where
  items :=
    [([.semi [0x3d] 0x0a], ⟨.word, [0x73]⟩), ([], .equals), ([], ⟨.word, [0x43]⟩),
      ([], .openBrace), ([.block [0x0a]], ⟨.word, [0x76]⟩), ([.white 0x20], .equals),
      ([], ⟨.string, [0x22]⟩), ([.line [0x7b] 0x0d], .semicolon), ([], .closeBrace)]
  gap := [.white 0x0a]
  ending := .semi [0x7d]

def sampleTree : ConfigTree :=
  .sect [0x73] ⟨.word, [0x43]⟩ (.value [0x76] ⟨.string, [0x22]⟩ .nil) .nil

theorem config_round_trip_sample :
    parseText [0x3b, 0x3d, 0x0a, 0x73, 0x3d, 0x43, 0x7b, 0x2f, 0x2a, 0x0a, 0x2a, 0x2f, 0x76, 0x20,
        0x3d, 0x22, 0x22, 0x22, 0x22, 0x2f, 0x2f, 0x7b, 0x0d, 0x3b, 0x7d, 0x0a, 0x3b, 0x7d] =
      .ok ⟨[], [.mk [0x73] [0x43] 2 1 [⟨[0x76], [0x22], 3, 3⟩] []]⟩ ∧
    Refused [0x61, 0x3d, 0x22, 0x22] ∧ Refused [0x40] := by
  obtain ⟨hlaid, _, hbroken, hfault⟩ := config_round_trip
  refine ⟨?_, ?_, ?_⟩
  · have hy : sampleLayout.Fits := by
      simp [sampleLayout, Layout.Fits, Items.Fits, Items.bytes, Items.hasToken, Gap.Ok,
        GapPiece.Ok, Gap.bytes, GapPiece.bytes, Tok.Ok, Tok.Ends, Tok.bytes, Tok.equals,
        Tok.semicolon, Tok.openBrace, Tok.closeBrace, Ending.Ok, Ending.bytes]
      decide
    have hok : sampleTree.Ok := by
      simp [sampleTree, ConfigTree.Ok, IsName, Tok.IsValue, Tok.Ok]
      decide
    exact (hlaid _ hy [] (.inl rfl)).2 sampleTree hok (by decide) rfl
  · have hy : Layout.Fits ⟨[([], ⟨.word, [0x61]⟩), ([], .equals), ([], ⟨.string, []⟩)], [],
        .none⟩ := by
      simp [Layout.Fits, Items.Fits, Items.bytes, Gap.Ok, Gap.bytes, Tok.Ok,
        Tok.Ends, Tok.bytes, Tok.equals, Ending.Ok, Ending.bytes]
      decide
    have hok : ConfigTree.Ok (.value [0x61] ⟨.string, []⟩ .nil) := by
      simp [ConfigTree.Ok, IsName, Tok.IsValue, Tok.Ok]
      decide
    refine hbroken _ _ _ hok (hlaid _ hy [] (.inl rfl)).1 ?_
    exact @Broken.missing _ [⟨.word, [0x61]⟩, .equals, ⟨.string, []⟩] [] .semicolon rfl (.inl rfl)
  · exact hfault [] [] (.illegal 0x40 []) _ ⟨by decide, fun h => absurd h (by decide)⟩ rfl trivial
      trivial

end Alphabox.System
