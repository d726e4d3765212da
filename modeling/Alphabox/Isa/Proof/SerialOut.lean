import Alphabox.Isa.SerialOut

/-!
# Telnet output stays framed where nothing is taken apart

`OutInv`: what the client has, what is being sent and what is queued are together the greeting and
data bytes of the guest's. A step of `WholeRun` keeps it; the two that take bytes away, a full queue
and a client that goes, would otherwise leave half of a doubled byte.
-/

namespace Alphabox.Isa

variable {greet guest g g' l m xs ys : List UInt8} {b c : UInt8} {s : SerialOut}

/-! ## Encoded bytes -/

theorem encode_nil : encode [] = [] := rfl

theorem dataItem_bytes (b : UInt8) : (dataItem b).bytes = txBytes b := by
  unfold dataItem txBytes
  split <;> rfl

theorem encode_cons : encode (b :: l) = txBytes b ++ encode l := by
  unfold encode
  rw [List.map_cons, List.flatMap_cons, dataItem_bytes]

theorem encode_append : encode (l ++ m) = encode l ++ encode m := by
  unfold encode
  rw [List.map_append, List.flatMap_append]

theorem encode_singleton : encode [b] = txBytes b := by
  rw [encode_cons, encode_nil, List.append_nil]

theorem txBytes_ne_nil (b : UInt8) : txBytes b ≠ [] := by
  unfold txBytes
  split <;> exact List.cons_ne_nil _ _

/-- No data byte begins like another's. -/
theorem txBytes_inj (h : txBytes b ++ xs = txBytes c ++ ys) : b = c ∧ xs = ys := by
  unfold txBytes at h
  by_cases hb : b = IAC <;> by_cases hc : c = IAC
  · rw [if_pos hb, if_pos hc] at h
    injection h with _ h
    injection h with _ h
    exact ⟨hb.trans hc.symm, h⟩
  · rw [if_pos hb, if_neg hc] at h
    injection h with h _
    exact absurd h.symm hc
  · rw [if_neg hb, if_pos hc] at h
    injection h with h _
    exact absurd h hb
  · rw [if_neg hb, if_neg hc] at h
    injection h with h h'
    exact ⟨h, h'⟩

/-- A command is not data. -/
theorem encode_command (hc : c ≠ IAC) (h : encode (b :: l) ++ xs = IAC :: c :: ys) : False := by
  rw [encode_cons] at h
  unfold txBytes at h
  by_cases hb : b = IAC
  · rw [if_pos hb] at h
    injection h with _ h
    injection h with h _
    exact hc h.symm
  · rw [if_neg hb] at h
    injection h with h _
    exact hb h

/-- What follows whole data bytes in data bytes is data bytes. -/
theorem encode_suffix (h : encode l ++ xs = encode m) : ∃ k, m = l ++ k ∧ xs = encode k := by
  induction l generalizing m with
  | nil => exact ⟨m, rfl, h⟩
  | cons b l ih =>
    rw [encode_cons, List.append_assoc] at h
    cases m with
    | nil => exact absurd (List.append_eq_nil_iff.1 h).1 (txBytes_ne_nil b)
    | cons c m =>
      rw [encode_cons] at h
      obtain ⟨hbc, hrest⟩ := txBytes_inj h
      obtain ⟨k, hm, hk⟩ := ih hrest
      exact ⟨k, by rw [hbc, hm, List.cons_append], hk⟩

/-- The beginning of data bytes is data bytes and at most half of one. -/
theorem encode_prefix (h : xs <+: encode m) : ∃ l tail, xs = encode l ++ tail ∧
    (tail = [] ∨ tail = [IAC]) ∧ l <+: m := by
  induction m generalizing xs with
  | nil => exact ⟨[], [], List.prefix_nil.1 h, Or.inl rfl, List.nil_prefix⟩
  | cons b m ih =>
    rw [encode_cons] at h
    have hcons {ys : List UInt8} (hys : ys <+: encode m) : ∃ l tail,
        txBytes b ++ ys = encode l ++ tail ∧ (tail = [] ∨ tail = [IAC]) ∧ l <+: b :: m := by
      obtain ⟨l, tail, he, ht, hl⟩ := ih hys
      exact ⟨b :: l, tail, by rw [he, encode_cons, List.append_assoc], ht,
        List.cons_prefix_cons.2 ⟨rfl, hl⟩⟩
    rcases List.prefix_or_prefix_of_prefix h (List.prefix_append (txBytes b) (encode m)) with
      hx | ⟨ys, rfl⟩
    · -- it ends in the byte's own encoding, where only the first half of two is cut
      by_cases hb : b = IAC
      · rw [txBytes, if_pos hb] at hx
        rcases xs with _ | ⟨x, _ | ⟨y, xs⟩⟩
        · exact ⟨[], [], rfl, Or.inl rfl, List.nil_prefix⟩
        · have hx := (List.cons_prefix_cons.1 hx).1
          exact ⟨[], [IAC], by rw [hx]; rfl, Or.inr rfl, List.nil_prefix⟩
        · obtain ⟨hx, hy⟩ := List.cons_prefix_cons.1 hx
          obtain ⟨hy, hxs⟩ := List.cons_prefix_cons.1 hy
          have hnil := hcons (List.nil_prefix (l := encode m))
          rw [txBytes, if_pos hb] at hnil
          rw [hx, hy, List.prefix_nil.1 hxs]
          exact hnil
      · rw [txBytes, if_neg hb] at hx
        cases xs with
        | nil => exact ⟨[], [], rfl, Or.inl rfl, List.nil_prefix⟩
        | cons x xs =>
          obtain ⟨hx, hxs⟩ := List.cons_prefix_cons.1 hx
          have hnil := hcons (List.nil_prefix (l := encode m))
          rw [txBytes, if_neg hb] at hnil
          rw [hx, List.prefix_nil.1 hxs]
          exact hnil
    · exact hcons ((List.prefix_append_right_inj _).1 h)

/-! ## The greeting -/

/-- A greeting begins with a command, where there is one. -/
theorem greeting_cases (serial1 : Bool) (text : List UInt8) :
    greeting serial1 text = [] ∨ ∃ rest, greeting serial1 text = IAC :: DO :: rest := by
  cases serial1 with
  | true => exact Or.inl rfl
  | false => exact Or.inr ⟨_, rfl⟩

theorem DO_ne_IAC : DO ≠ IAC := by decide

/-- Data bytes behind a greeting, and how they may begin. -/
theorem greeted_split (hgreet : greet = [] ∨ ∃ rest, greet = IAC :: DO :: rest)
    (hg : Greeted greet g) (hg' : Greeted greet g')
    (h : g ++ encode l ++ xs = g' ++ encode m) :
    (∃ k, m = l ++ k ∧ xs = encode k) ∨ (l = [] ∧ xs = g' ++ encode m) := by
  by_cases heq : g = g'
  · rw [heq, List.append_assoc] at h
    exact Or.inl (encode_suffix (List.append_cancel_left h))
  · rcases hgreet with hnil | ⟨rest, hrest⟩
    · have hboth {a : List UInt8} (ha : Greeted greet a) : a = [] :=
        ha.elim (fun h => h.trans hnil) id
      exact absurd ((hboth hg).trans (hboth hg').symm) heq
    · rcases hg with hg | hg
      · -- data that would begin with the greeting's first command
        have hg' : g' = [] := hg'.resolve_left fun h' => heq (hg.trans h'.symm)
        rw [hg, hg', hrest] at h
        cases m with
        | nil => exact absurd h (List.cons_ne_nil _ _)
        | cons b m =>
          have hcmd : encode (b :: m) ++ [] = IAC :: DO :: (rest ++ encode l ++ xs) := by
            rw [List.append_nil]
            exact h.symm
          exact (encode_command DO_ne_IAC hcmd).elim
      · have hg' : g' = greet := hg'.resolve_right fun h' => heq (hg.trans h'.symm)
        cases l with
        | nil => exact Or.inr ⟨rfl, by rw [← h, hg]; rfl⟩
        | cons b l =>
          rw [hg, hg', hrest] at h
          exact (encode_command DO_ne_IAC h).elim

/-- What a client has of a greeting and data bytes is framed. -/
theorem framed_of_prefix (hg : Greeted greet g) (h : xs <+: g ++ encode m)
    (hm : m.Sublist guest) : Framed greet guest xs := by
  rcases List.prefix_or_prefix_of_prefix h (List.prefix_append g (encode m)) with hx | ⟨ys, rfl⟩
  · rcases hg with rfl | rfl
    · exact Or.inl hx
    · exact Or.inl (List.prefix_nil.1 hx ▸ List.nil_prefix)
  · obtain ⟨l, tail, rfl, ht, hl⟩ := encode_prefix ((List.prefix_append_right_inj g).1 h)
    exact Or.inr ⟨g, l, tail, hg, (List.append_assoc ..).symm, ht, hl.sublist.trans hm⟩

theorem Framed.grow (h : Framed greet guest xs) (b : UInt8) : Framed greet (guest ++ [b]) xs := by
  rcases h with h | ⟨g, l, tail, hg, he, ht, hl⟩
  · exact Or.inl h
  · exact Or.inr ⟨g, l, tail, hg, he, ht, hl.trans (List.sublist_append_left guest [b])⟩

/-! ## The invariant -/

/-- What a client had of a greeting and data bytes, and the queue behind it. -/
structure OutInv (greet : List UInt8) (s : SerialOut) : Prop where
  framed : ∀ r ∈ s.client :: s.before, Framed greet s.guest r
  connected : s.connected = true → ∃ g p q, Greeted greet g ∧ (p ++ q).Sublist s.guest ∧
    ((s.client ++ s.sending.drop s.sent = g ++ encode p ∧ s.queue = encode q) ∨
      (s.client ++ s.sending.drop s.sent = [] ∧ p = [] ∧ s.queue = g ++ encode q))
  idle : s.connected = false →
    s.sending.drop s.sent = [] ∧ ∃ q, s.queue = encode q ∧ q.Sublist s.guest

theorem outInv_start : OutInv greet SerialOut.start := by
  refine ⟨fun r hr => ?_, fun h => Bool.noConfusion h, fun _ => ⟨rfl, [], rfl, List.Sublist.refl _⟩⟩
  rw [List.mem_singleton.1 hr]
  exact Or.inl List.nil_prefix

section

variable (hgreet : greet = [] ∨ ∃ rest, greet = IAC :: DO :: rest)

include hgreet

/-- What a queue that has lost whole bytes is left with. -/
theorem drop_whole {q : List UInt8} {n : Nat} (hg' : Greeted greet g')
    (hw : ∃ g l, Greeted greet g ∧ (g' ++ encode m).take n = g ++ encode l)
    (hq : q = g' ++ encode m) :
    (∃ k, q.drop n = encode k ∧ k.Sublist m) ∨ q.drop n = g' ++ encode m := by
  obtain ⟨g, l, hg, ht⟩ := hw
  have h : g ++ encode l ++ (g' ++ encode m).drop n = g' ++ encode m := by
    rw [← ht, List.take_append_drop]
  rw [hq]
  rcases greeted_split hgreet hg hg' h with ⟨k, hm, hk⟩ | ⟨-, hk⟩
  · exact Or.inl ⟨k, hk, hm ▸ List.sublist_append_right l k⟩
  · exact Or.inr hk

theorem outInv_tx (hs : OutInv greet s) (hw : (OutEvent.tx b).Whole greet s) :
    OutInv greet (s.tx b) := by
  refine ⟨fun r hr => (hs.framed r hr).grow b, fun hc => ?_, fun hc => ?_⟩
  · obtain ⟨g, p, q, hg, hsub, ⟨hhad, hq⟩ | ⟨hhad, hp, hq⟩⟩ := hs.connected hc
    · have hq' : s.queue ++ txBytes b = [] ++ encode (q ++ [b]) := by
        rw [hq, encode_append, encode_singleton]
        rfl
      have hsub' : (p ++ (q ++ [b])).Sublist (s.guest ++ [b]) := by
        rw [← List.append_assoc]
        exact hsub.append (List.Sublist.refl [b])
      have hw' := hw
      simp only [OutEvent.Whole] at hw'
      rw [hq'] at hw'
      rcases drop_whole hgreet (Or.inr rfl) hw' rfl with ⟨k, hk, hkq⟩ | hk
      · refine ⟨g, p, k, hg, ((List.Sublist.refl p).append hkq).trans hsub', Or.inl ⟨hhad, ?_⟩⟩
        show (s.queue ++ txBytes b).drop (SerialOut.excess (s.queue ++ txBytes b)) = encode k
        rw [hq']
        exact hk
      · refine ⟨g, p, q ++ [b], hg, hsub', Or.inl ⟨hhad, ?_⟩⟩
        show (s.queue ++ txBytes b).drop (SerialOut.excess (s.queue ++ txBytes b)) = _
        rw [hq']
        exact hk
    · have hq' : s.queue ++ txBytes b = g ++ encode (q ++ [b]) := by
        rw [hq, encode_append, encode_singleton, List.append_assoc]
      have hsub' : (q ++ [b]).Sublist (s.guest ++ [b]) := by
        rw [hp] at hsub
        exact List.Sublist.append hsub (List.Sublist.refl [b])
      have hw' := hw
      simp only [OutEvent.Whole] at hw'
      rw [hq'] at hw'
      rcases drop_whole hgreet hg hw' rfl with ⟨k, hk, hkq⟩ | hk
      · refine ⟨[], [], k, Or.inr rfl, hkq.trans hsub', Or.inl ⟨hhad, ?_⟩⟩
        show (s.queue ++ txBytes b).drop (SerialOut.excess (s.queue ++ txBytes b)) = encode k
        rw [hq']
        exact hk
      · refine ⟨g, [], q ++ [b], hg, hsub', Or.inr ⟨hhad, rfl, ?_⟩⟩
        show (s.queue ++ txBytes b).drop (SerialOut.excess (s.queue ++ txBytes b)) = _
        rw [hq']
        exact hk
  · obtain ⟨hsend, q, hq, hsub⟩ := hs.idle hc
    have hq' : s.queue ++ txBytes b = [] ++ encode (q ++ [b]) := by
      rw [hq, encode_append, encode_singleton]
      rfl
    have hsub' : (q ++ [b]).Sublist (s.guest ++ [b]) := hsub.append (List.Sublist.refl [b])
    have hw' := hw
    simp only [OutEvent.Whole] at hw'
    rw [hq'] at hw'
    refine ⟨hsend, ?_⟩
    show ∃ k, (s.queue ++ txBytes b).drop (SerialOut.excess (s.queue ++ txBytes b)) = encode k ∧
      k.Sublist (s.guest ++ [b])
    rw [hq']
    rcases drop_whole hgreet (Or.inr rfl) hw' rfl with ⟨k, hk, hkq⟩ | hk
    · exact ⟨k, hk, hkq.trans hsub'⟩
    · exact ⟨q ++ [b], hk, hsub'⟩

theorem outInv_drop (hs : OutInv greet s) (hw : OutEvent.drop.Whole greet s) :
    OutInv greet s.dropClient := by
  unfold SerialOut.dropClient
  by_cases hc : s.connected = true
  · rw [if_pos hc]
    refine ⟨hs.framed, fun h => Bool.noConfusion h, fun _ => ⟨rfl, ?_⟩⟩
    obtain ⟨g, l, m, hg, hclient, hrest⟩ := hw hc
    obtain ⟨g', p, q, hg', hsub, hinv⟩ := hs.connected hc
    have hall : g ++ encode (l ++ m) ++ [] = g' ++ encode (p ++ q) := by
      rw [List.append_nil, encode_append, encode_append, ← List.append_assoc, ← hclient, ← hrest,
        ← List.append_assoc]
      rcases hinv with ⟨hhad, hq⟩ | ⟨hhad, hp, hq⟩
      · rw [hhad, hq, List.append_assoc]
      · rw [hhad, hp, hq]
        rfl
    refine ⟨m, hrest, ?_⟩
    rcases greeted_split hgreet hg hg' hall with ⟨k, hpq, -⟩ | ⟨hlm, -⟩
    · refine List.Sublist.trans ?_ hsub
      rw [hpq, List.append_assoc]
      exact (List.sublist_append_left m k).trans (List.sublist_append_right l (m ++ k))
    · rw [(List.append_eq_nil_iff.1 hlm).2]
      exact List.nil_sublist _
  · rw [if_neg hc]
    exact hs

end

/-- The thread takes the queue, with nothing left to send. -/
theorem outInv_swap (hs : OutInv greet s) (hc : s.connected = true)
    (hsent : s.sent = s.sending.length) :
    OutInv greet { s with sending := s.queue, sent := 0, queue := [] } := by
  have hnil : s.sending.drop s.sent = [] := List.drop_of_length_le (Nat.le_of_eq hsent.symm)
  refine ⟨hs.framed, fun _ => ?_, fun h => absurd (hc.symm.trans h) (by decide)⟩
  obtain ⟨g, p, q, hg, hsub, ⟨hhad, hq⟩ | ⟨hhad, -, hq⟩⟩ := hs.connected hc
  · rw [hnil, List.append_nil] at hhad
    refine ⟨g, p ++ q, [], hg, by rw [List.append_nil]; exact hsub, Or.inl ⟨?_, rfl⟩⟩
    show s.client ++ s.queue = g ++ encode (p ++ q)
    rw [hhad, hq, encode_append, List.append_assoc]
  · rw [hnil, List.append_nil] at hhad
    refine ⟨g, q, [], hg, ?_, Or.inl ⟨?_, rfl⟩⟩
    · rw [List.append_nil]
      exact (List.sublist_append_right p q).trans hsub
    · show s.client ++ s.queue = g ++ encode q
      rw [hhad, hq]
      rfl

/-- The socket takes some of what is being sent. -/
theorem outInv_taken (hs : OutInv greet s) (hc : s.connected = true) (n : Nat) :
    OutInv greet { s with
      sent := s.sent + n
      client := s.client ++ (s.sending.drop s.sent).take n } := by
  obtain ⟨g, p, q, hg, hsub, hinv⟩ := hs.connected hc
  have hhad : s.client ++ (s.sending.drop s.sent).take n ++ s.sending.drop (s.sent + n) =
      s.client ++ s.sending.drop s.sent := by
    rw [← List.drop_drop, List.append_assoc, List.take_append_drop]
  refine ⟨fun r hr => ?_, fun _ => ⟨g, p, q, hg, hsub, hhad.symm ▸ hinv⟩,
    fun h => absurd (hc.symm.trans h) (by decide)⟩
  rcases List.mem_cons.1 hr with rfl | hr
  · have hpre : s.client ++ (s.sending.drop s.sent).take n <+:
        s.client ++ s.sending.drop s.sent := ⟨_, hhad⟩
    rcases hinv with ⟨hhad, -⟩ | ⟨hhad, -, -⟩
    · exact framed_of_prefix hg (hhad ▸ hpre) ((List.sublist_append_left p q).trans hsub)
    · rw [hhad] at hpre
      exact Or.inl (List.prefix_nil.1 hpre ▸ List.nil_prefix)
  · exact hs.framed r (List.mem_cons_of_mem _ hr)

theorem outInv_send (hs : OutInv greet s) (n : Nat) : OutInv greet (s.sendOutput n) := by
  unfold SerialOut.sendOutput
  by_cases hc : s.connected = true
  · rw [if_neg (by rw [hc]; decide)]
    dsimp only
    by_cases hsent : s.sent = s.sending.length
    · rw [if_pos hsent]
      exact outInv_taken (outInv_swap hs hc hsent) hc _
    · rw [if_neg hsent]
      exact outInv_taken hs hc _
  · rw [if_pos (by rw [eq_false_of_ne_true hc]; decide)]
    exact hs

theorem outInv_connect (hs : OutInv greet s) : OutInv greet (s.connect greet) := by
  unfold SerialOut.connect
  by_cases hc : s.connected = true
  · rw [if_pos hc]
    exact hs
  · rw [if_neg hc]
    obtain ⟨hsend, q, hq, hsub⟩ := hs.idle (eq_false_of_ne_true hc)
    refine ⟨fun r hr => ?_, fun _ => ⟨greet, [], q, Or.inl rfl, hsub, Or.inr ⟨hsend, rfl, ?_⟩⟩,
      fun h => Bool.noConfusion h⟩
    · rcases List.mem_cons.1 hr with rfl | hr
      · exact Or.inl List.nil_prefix
      · exact hs.framed r hr
    · show greet ++ s.queue = greet ++ encode q
      rw [hq]

theorem outInv_step (hgreet : greet = [] ∨ ∃ rest, greet = IAC :: DO :: rest)
    (hs : OutInv greet s) (e : OutEvent) (hw : e.Whole greet s) : OutInv greet (s.step greet e) := by
  cases e with
  | tx b => exact outInv_tx hgreet hs hw
  | send n => exact outInv_send hs n
  | drop => exact outInv_drop hgreet hs hw
  | connect => exact outInv_connect hs

theorem outInv_run (hgreet : greet = [] ∨ ∃ rest, greet = IAC :: DO :: rest)
    (h : WholeRun greet s) : OutInv greet s := by
  induction h with
  | start => exact outInv_start
  | step e _ hw ih => exact outInv_step hgreet ih e hw

/-- In a run that takes no data byte apart every client there has been has received its greeting and
behind it only data bytes of the guest's, each whole, in their order. -/
theorem clients_framed (serial1 : Bool) (text : List UInt8) (s : SerialOut)
    (h : WholeRun (greeting serial1 text) s) :
    ∀ r ∈ s.client :: s.before, Framed (greeting serial1 text) s.guest r :=
  (outInv_run (greeting_cases serial1 text) h).framed

/-- A client is replaced once it has had a doubled byte, and there is another for the next. -/
theorem clients_framed_replaced :
    Framed [] [0xff, 0x41] [0x41] ∧ Framed [] [0xff, 0x41] [0xff, 0xff] :=
  have hrun := clients_framed true []
    ⟨[], [0x41], 1, true, [0x41], [[0xff, 0xff], []], [0xff, 0x41]⟩
    (.step (.send 1) (.step .connect (.step .drop (.step (.tx 0x41) (.step (.send 2)
      (.step (.tx 0xff) (.step .connect .start trivial) ⟨[], [], Or.inl rfl, rfl⟩) trivial)
      ⟨[], [], Or.inl rfl, rfl⟩) fun _ => ⟨[], [0xff], [0x41], Or.inl rfl, rfl, rfl⟩)
      trivial) trivial)
  ⟨hrun [0x41] (List.mem_cons_self ..),
    hrun [0xff, 0xff] (List.mem_cons_of_mem _ (List.mem_cons_self ..))⟩

/-- A client goes away with half of a doubled byte: the next has the other half in front of its data,
where it is a command. -/
theorem client_gets_half : ¬∀ (serial1 : Bool) (text : List UInt8) (events : List OutEvent),
    ∀ r ∈ (events.foldl (SerialOut.step (greeting serial1 text)) SerialOut.start).client ::
        (events.foldl (SerialOut.step (greeting serial1 text)) SerialOut.start).before,
      Framed (greeting serial1 text)
        (events.foldl (SerialOut.step (greeting serial1 text)) SerialOut.start).guest r := by
  intro h
  have hf : Framed [] [0xff, 0x41] [0xff, 0x41] :=
    h true [] [.connect, .tx 0xff, .send 1, .drop, .connect, .tx 0x41, .send 2] _
      (List.mem_cons_self ..)
  rcases hf with hf | ⟨g, l, tail, hg, he, ht, -⟩
  · exact absurd (List.prefix_nil.1 hf) (List.cons_ne_nil _ _)
  · rw [hg.elim id id, List.nil_append] at he
    cases l with
    | nil =>
      rcases ht with rfl | rfl
      · exact absurd he (List.cons_ne_nil _ _)
      · exact absurd (congrArg List.length he) (by decide)
    | cons b l => exact encode_command (c := 0x41) (by decide) he.symm

end Alphabox.Isa
