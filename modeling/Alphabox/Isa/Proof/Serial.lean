import Alphabox.Isa.Serial

/-!
# Telnet input does not depend on the reads

`cook_append`: what is read in two pieces decodes as the whole, the first piece's carry in front of
the second. So a run of the port has decoded all it has read as one read would (`SerialInv`), and
`cook_items` says what that is for a stream made of items.
-/

namespace Alphabox.Isa

variable {t : Telnet} {cmd : UInt8} {bs xs ys : List UInt8}

/-! ## The loop's turns -/

/-- The decoder's output behind other output. -/
def Cooked.after (pre : List UInt8) (r : Telnet × List UInt8) : Telnet × List UInt8 :=
  (r.1, pre ++ r.2)

/-- What the loop does in a subnegotiation, by the bytes ahead. -/
structure SubnegTurns (t : Telnet) : Prop where
  byte {b : UInt8} {bs : List UInt8} : b ≠ IAC → cook t (b :: bs) = cook t bs
  ended {bs : List UInt8} : cook t (IAC :: SE :: bs) = cook { t with inSubneg := false } bs
  pair {c : UInt8} {bs : List UInt8} : c ≠ SE → cook t (IAC :: c :: bs) = cook t bs
  cut : cook t [IAC] = ({ t with iacCarry := [IAC] }, [])

theorem cook_subneg (ht : t.inSubneg = true) : SubnegTurns t := by
  constructor
  case byte =>
    intro b bs hb
    conv => lhs; unfold cook
    rw [if_pos ht, if_neg hb]
  case ended =>
    intro bs
    conv => lhs; unfold cook
    rw [if_pos ht, if_pos rfl]
    exact if_pos rfl
  case pair =>
    intro c bs hc
    conv => lhs; unfold cook
    rw [if_pos ht, if_pos rfl]
    exact if_neg hc
  case cut =>
    conv => lhs; unfold cook
    rw [if_pos ht, if_pos rfl]

/-- What it does outside, by the bytes ahead. -/
structure CookTurns (t : Telnet) : Prop where
  iac {bs : List UInt8} : cook t (IAC :: IAC :: bs) =
    Cooked.after [0xff] (cook { t with afterCr := false } bs)
  option {cmd opt : UInt8} {bs : List UInt8} : isNegotiation cmd = true →
    cook t (IAC :: cmd :: opt :: bs) = cook t bs
  sb {bs : List UInt8} : cook t (IAC :: SB :: bs) = cook { t with inSubneg := true } bs
  command {cmd : UInt8} {bs : List UInt8} : cmd ≠ IAC ∧ isNegotiation cmd = false ∧ cmd ≠ SB →
    cook t (IAC :: cmd :: bs) = cook { t with breakHit := t.breakHit || cmd == BREAK } bs
  cut : cook t [IAC] = ({ t with iacCarry := [IAC] }, [])
  optionCut {cmd : UInt8} : isNegotiation cmd = true →
    cook t [IAC, cmd] = ({ t with iacCarry := [IAC, cmd] }, [])
  data {b : UInt8} {bs : List UInt8} : b ≠ IAC → cook t (b :: bs) =
    if b = 0 ∧ t.afterCr then cook { t with afterCr := false } bs
    else Cooked.after [b] (cook { t with afterCr := b == 13 } bs)

theorem negotiation_ne (hc : isNegotiation cmd = true) : cmd ≠ IAC := by
  rintro rfl
  revert hc
  decide

theorem cook_turns (ht : t.inSubneg = false) : CookTurns t := by
  have hoff : ¬t.inSubneg = true := by
    rw [ht]
    exact Bool.false_ne_true
  constructor
  case iac =>
    intro bs
    conv => lhs; unfold cook
    rw [if_neg hoff, if_pos rfl]
    exact if_pos rfl
  case option =>
    intro cmd opt bs hc
    conv => lhs; unfold cook
    rw [if_neg hoff, if_pos rfl]
    exact (if_neg (negotiation_ne hc)).trans (if_pos hc)
  case sb =>
    intro bs
    conv => lhs; unfold cook
    rw [if_neg hoff, if_pos rfl]
    exact (if_neg (by decide)).trans ((if_neg (by decide)).trans (if_pos rfl))
  case command =>
    rintro cmd bs ⟨h1, h2, h3⟩
    conv => lhs; unfold cook
    rw [if_neg hoff, if_pos rfl]
    refine (if_neg h1).trans ((if_neg (by rw [h2]; decide)).trans ((if_neg h3).trans ?_))
    by_cases hb : cmd = BREAK
    · rw [if_pos hb, hb, show (BREAK == BREAK) = true from rfl, Bool.or_true]
    · rw [if_neg hb, beq_eq_false_iff_ne.2 hb, Bool.or_false]
  case cut =>
    conv => lhs; unfold cook
    rw [if_neg hoff, if_pos rfl]
  case optionCut =>
    intro cmd hc
    conv => lhs; unfold cook
    rw [if_neg hoff, if_pos rfl]
    exact (if_neg (negotiation_ne hc)).trans (if_pos hc)
  case data =>
    intro b bs hb
    conv => lhs; unfold cook
    rw [if_neg hoff, if_neg hb]
    rfl

/-! ## Streams as items -/

/-- A stream splits where the subnegotiation it is in ends, if it does. -/
theorem exists_subneg (bs : List UInt8) :
    (∃ (body : List SubnegItem) (more : List UInt8),
      bs = body.flatMap SubnegItem.bytes ++ IAC :: SE :: more) ∨
    (∃ body : List SubnegItem, bs = body.flatMap SubnegItem.bytes) ∨
    ∃ body : List SubnegItem, bs = body.flatMap SubnegItem.bytes ++ [IAC] := by
  induction hn : bs.length using Nat.strongRecOn generalizing bs with
  | _ n ih =>
    -- an item in front of what is left
    have hcons (x : SubnegItem) (rest : List UInt8) (hlt : rest.length < n) :
        (∃ (body : List SubnegItem) (more : List UInt8),
          x.bytes ++ rest = body.flatMap SubnegItem.bytes ++ IAC :: SE :: more) ∨
        (∃ body : List SubnegItem, x.bytes ++ rest = body.flatMap SubnegItem.bytes) ∨
        ∃ body : List SubnegItem, x.bytes ++ rest = body.flatMap SubnegItem.bytes ++ [IAC] := by
      rcases ih rest.length hlt rest rfl with ⟨body, more, he⟩ | ⟨body, he⟩ | ⟨body, he⟩
      · exact Or.inl ⟨x :: body, more, by rw [he, List.flatMap_cons, List.append_assoc]⟩
      · exact Or.inr (Or.inl ⟨x :: body, by rw [he, List.flatMap_cons]⟩)
      · exact Or.inr (Or.inr ⟨x :: body, by rw [he, List.flatMap_cons, List.append_assoc]⟩)
    cases bs with
    | nil => exact Or.inr (Or.inl ⟨[], rfl⟩)
    | cons b bs =>
      rw [List.length_cons] at hn
      by_cases hb : b = IAC
      · cases bs with
        | nil => exact Or.inr (Or.inr ⟨[], by rw [hb]; rfl⟩)
        | cons c bs =>
          rw [List.length_cons] at hn
          by_cases hc : c = SE
          · exact Or.inl ⟨[], bs, by rw [hb, hc]; rfl⟩
          · rw [hb]
            exact hcons (.pair c hc) bs (by omega)
      · exact hcons (.byte b hb) bs (by omega)

/-- Every stream is items and what there is of one more. -/
theorem exists_items (bs : List UInt8) :
    ∃ (items : List TelnetItem) (rest : TelnetRest),
      bs = items.flatMap TelnetItem.bytes ++ rest.bytes := by
  induction hn : bs.length using Nat.strongRecOn generalizing bs with
  | _ n ih =>
    have hcons (x : TelnetItem) (more : List UInt8) (hlt : more.length < n) :
        ∃ (items : List TelnetItem) (rest : TelnetRest),
          x.bytes ++ more = items.flatMap TelnetItem.bytes ++ rest.bytes := by
      obtain ⟨items, rest, he⟩ := ih more.length hlt more rfl
      exact ⟨x :: items, rest, by rw [he, List.flatMap_cons, List.append_assoc]⟩
    cases bs with
    | nil => exact ⟨[], .none, rfl⟩
    | cons b bs =>
      rw [List.length_cons] at hn
      by_cases hb : b = IAC
      · rw [hb]
        cases bs with
        | nil => exact ⟨[], .iac, rfl⟩
        | cons cmd bs =>
          rw [List.length_cons] at hn
          by_cases hi : cmd = IAC
          · rw [hi]
            exact hcons .iac bs (by omega)
          by_cases ho : isNegotiation cmd = true
          · cases bs with
            | nil => exact ⟨[], .option cmd ho, rfl⟩
            | cons opt bs =>
              rw [List.length_cons] at hn
              exact hcons (.option cmd opt ho) bs (by omega)
          by_cases hs : cmd = SB
          · rw [hs]
            rcases exists_subneg bs with ⟨body, more, he⟩ | ⟨body, he⟩ | ⟨body, he⟩
            · have hlen := congrArg List.length he
              rw [List.length_append, List.length_cons, List.length_cons] at hlen
              obtain ⟨items, rest, hrest⟩ := hcons (.subneg body) more (by omega)
              refine ⟨items, rest, hrest ▸ ?_⟩
              rw [he]
              simp [TelnetItem.bytes]
            · exact ⟨[], .subneg body, by rw [he]; rfl⟩
            · exact ⟨[], .subnegIac body, by rw [he]; simp [TelnetRest.bytes]⟩
          · exact hcons (.command cmd ⟨hi, eq_false_of_ne_true ho, hs⟩) bs (by omega)
      · exact hcons (.data b hb) bs (by omega)

/-! ## What items decode to -/

/-- A subnegotiation's body is skipped. -/
theorem cook_body (ht : t.inSubneg = true) (body : List SubnegItem) :
    cook t (body.flatMap SubnegItem.bytes ++ bs) = cook t bs := by
  induction body with
  | nil => rfl
  | cons x body ih =>
    rw [List.flatMap_cons, List.append_assoc]
    cases x with
    | byte b hb => exact ((cook_subneg ht).byte hb).trans ih
    | pair c hc => exact ((cook_subneg ht).pair hc).trans ih

theorem subneg_off (ht : t.inSubneg = false) :
    { { t with inSubneg := true } with inSubneg := false } = t := by
  cases t
  cases ht
  rfl

theorem breakHit_keep {x : TelnetItem} {cr : Bool} (hx : x.isBreak = false) :
    { t with afterCr := cr, breakHit := t.breakHit || x.isBreak } = { t with afterCr := cr } := by
  rw [hx, Bool.or_false]

/-- One item: what it puts out, and the decoder behind it. -/
theorem cook_item (ht : t.inSubneg = false) (x : TelnetItem) : ∃ cr,
    (∀ bs, cook t (x.bytes ++ bs) =
      Cooked.after (dropNul t.afterCr x.payload.toList)
        (cook { t with afterCr := cr, breakHit := t.breakHit || x.isBreak } bs)) ∧
    ∀ l, dropNul t.afterCr (x.payload.toList ++ l) =
      dropNul t.afterCr x.payload.toList ++ dropNul cr l := by
  cases x with
  | data b hb =>
    by_cases h0 : b = 0 ∧ t.afterCr = true
    · refine ⟨false, fun bs => ?_, fun l => ?_⟩
      · have hcook := @(cook_turns ht).data b bs hb
        rw [if_pos h0] at hcook
        show cook t (b :: bs) = _
        rw [hcook, breakHit_keep rfl, TelnetItem.payload, Option.toList_some,
          dropNul, if_pos h0]
        rfl
      · rw [TelnetItem.payload, Option.toList_some, List.singleton_append, dropNul, dropNul,
          if_pos h0, if_pos h0]
        rfl
    · refine ⟨b == 13, fun bs => ?_, fun l => ?_⟩
      · have hcook := @(cook_turns ht).data b bs hb
        rw [if_neg h0] at hcook
        show cook t (b :: bs) = _
        rw [hcook, breakHit_keep rfl, TelnetItem.payload, Option.toList_some,
          dropNul, if_neg h0]
        rfl
      · rw [TelnetItem.payload, Option.toList_some, List.singleton_append, dropNul, dropNul,
          if_neg h0, if_neg h0]
        rfl
  | iac =>
    have h0 : ¬((0xff : UInt8) = 0 ∧ t.afterCr = true) := fun h => absurd h.1 (by decide)
    refine ⟨false, fun bs => ?_, fun l => ?_⟩
    · refine (cook_turns ht).iac.trans ?_
      rw [breakHit_keep rfl, TelnetItem.payload, Option.toList_some, dropNul, if_neg h0]
      rfl
    · rw [TelnetItem.payload, Option.toList_some, List.singleton_append, dropNul, dropNul,
        if_neg h0, if_neg h0]
      rfl
  | option cmd opt hc =>
    refine ⟨t.afterCr, fun bs => ((cook_turns ht).option hc).trans ?_, fun l => rfl⟩
    rw [breakHit_keep rfl]
    rfl
  | subneg body =>
    refine ⟨t.afterCr, fun bs => ?_, fun l => rfl⟩
    have hbytes : (TelnetItem.subneg body).bytes ++ bs =
        IAC :: SB :: (body.flatMap SubnegItem.bytes ++ IAC :: SE :: bs) := by
      simp [TelnetItem.bytes]
    rw [hbytes, (cook_turns ht).sb, cook_body rfl, (cook_subneg rfl).ended, subneg_off ht,
      breakHit_keep rfl]
    rfl
  | command cmd hc => exact ⟨t.afterCr, fun bs => (cook_turns ht).command hc, fun l => rfl⟩

theorem after_append (xs ys : List UInt8) (r : Telnet × List UInt8) :
    Cooked.after xs (Cooked.after ys r) = Cooked.after (xs ++ ys) r :=
  Prod.ext rfl (List.append_assoc xs ys r.2).symm

/-- A stream of items: their data less the NULs behind CR, and BREAK if it is among them. -/
theorem cook_items (ht : t.inSubneg = false) (items : List TelnetItem) : ∃ cr, ∀ bs,
    cook t (items.flatMap TelnetItem.bytes ++ bs) =
      Cooked.after (dropNul t.afterCr (items.filterMap TelnetItem.payload))
        (cook { t with
          afterCr := cr, breakHit := t.breakHit || items.any TelnetItem.isBreak } bs) := by
  induction items generalizing t with
  | nil => exact ⟨t.afterCr, fun bs => by rw [List.any_nil, Bool.or_false]; rfl⟩
  | cons x items ih =>
    obtain ⟨cr, hx, hl⟩ := cook_item ht x
    obtain ⟨cr', hi⟩ := ih (t := { t with
      afterCr := cr, breakHit := t.breakHit || x.isBreak }) ht
    refine ⟨cr', fun bs => ?_⟩
    have hpay : (x :: items).filterMap TelnetItem.payload =
        x.payload.toList ++ items.filterMap TelnetItem.payload := by
      cases hp : x.payload with
      | none => exact List.filterMap_cons_none hp
      | some b => exact List.filterMap_cons_some hp
    rw [List.flatMap_cons, List.append_assoc, hx, hi, after_append, hpay, hl, List.any_cons,
      ← Bool.or_assoc]

/-- What is left of a stream at its end is carried, and nothing is put out for it. -/
theorem cook_rest (ht : t.inSubneg = false) (hc : t.iacCarry = []) (rest : TelnetRest) :
    cook t rest.bytes =
      ({ t with iacCarry := rest.carry, inSubneg := rest.isOpen }, []) := by
  have hself : t = { t with iacCarry := [], inSubneg := false } := by
    cases t
    cases ht
    cases hc
    rfl
  cases rest with
  | none => exact Prod.ext hself rfl
  | iac =>
    refine (cook_turns ht).cut.trans (Prod.ext ?_ rfl)
    exact congrArg (fun t : Telnet => { t with iacCarry := [IAC] }) hself
  | option cmd h =>
    refine ((cook_turns ht).optionCut h).trans (Prod.ext ?_ rfl)
    exact congrArg (fun t : Telnet => { t with iacCarry := [IAC, cmd] }) hself
  | subneg body =>
    have hbytes : (TelnetRest.subneg body).bytes =
        IAC :: SB :: (body.flatMap SubnegItem.bytes ++ []) := by
      simp [TelnetRest.bytes]
    rw [hbytes, (cook_turns ht).sb, cook_body rfl]
    refine Prod.ext ?_ rfl
    exact congrArg (fun t : Telnet => { t with inSubneg := true }) hself
  | subnegIac body =>
    have hbytes : (TelnetRest.subnegIac body).bytes =
        IAC :: SB :: (body.flatMap SubnegItem.bytes ++ [IAC]) := by
      simp [TelnetRest.bytes]
    rw [hbytes, (cook_turns ht).sb, cook_body rfl, (cook_subneg rfl).cut]
    rfl

/-! ## Reads -/

/-- The decoder of a new connection. -/
def freshTelnet : Telnet := ⟨[], false, false, false⟩

/-- Behind a stream's rest, with its carry in front. -/
theorem cook_resume (ht : t.inSubneg = false) (rest : TelnetRest) :
    cook t (rest.bytes ++ ys) = cook { t with inSubneg := rest.isOpen } (rest.carry ++ ys) := by
  have hself : { t with inSubneg := false } = t := by
    cases t
    cases ht
    rfl
  cases rest with
  | none => exact congrArg (cook · ys) hself.symm
  | iac => exact congrArg (cook · (IAC :: ys)) hself.symm
  | option cmd h => exact congrArg (cook · (IAC :: cmd :: ys)) hself.symm
  | subneg body =>
    have hbytes : (TelnetRest.subneg body).bytes ++ ys =
        IAC :: SB :: (body.flatMap SubnegItem.bytes ++ ys) := by
      simp [TelnetRest.bytes]
    rw [hbytes, (cook_turns ht).sb, cook_body rfl]
    rfl
  | subnegIac body =>
    have hbytes : (TelnetRest.subnegIac body).bytes ++ ys =
        IAC :: SB :: (body.flatMap SubnegItem.bytes ++ IAC :: ys) := by
      simp [TelnetRest.bytes]
    rw [hbytes, (cook_turns ht).sb, cook_body rfl]
    rfl

/-- What a stream of items and a rest decodes to from the start. -/
theorem cook_stream (items : List TelnetItem) (rest : TelnetRest) : ∃ cr,
    cook freshTelnet (items.flatMap TelnetItem.bytes ++ rest.bytes) =
      (⟨rest.carry, rest.isOpen, cr, items.any TelnetItem.isBreak⟩,
        dropNul false (items.filterMap TelnetItem.payload)) := by
  obtain ⟨cr, hi⟩ := cook_items (t := freshTelnet) rfl items
  refine ⟨cr, (hi rest.bytes).trans ?_⟩
  rw [cook_rest rfl rfl rest]
  exact Prod.ext rfl (List.append_nil _)

/-- One more read goes on where the bytes so far end, wherever that is. -/
theorem cook_read (received ys : List UInt8) :
    cook freshTelnet (received ++ ys) = Cooked.after (cook freshTelnet received).2
      ((cook freshTelnet received).1.read ys) := by
  obtain ⟨items, rest, he⟩ := exists_items received
  obtain ⟨cr, hi⟩ := cook_items (t := freshTelnet) rfl items
  have hpre := hi rest.bytes
  rw [cook_rest rfl rfl rest] at hpre
  rw [he, List.append_assoc, hi, cook_resume rfl rest, hpre]
  exact Prod.ext rfl (congrArg (· ++ _) (List.append_nil _).symm)

/-! ## Sizes -/

theorem cook_length (t : Telnet) (bs : List UInt8) : (cook t bs).2.length ≤ bs.length := by
  fun_induction cook t bs <;> simp_all <;> omega

/-- A carried IAC puts nothing out that the read's own bytes do not. -/
theorem cook_iac_length (t : Telnet) (ys : List UInt8) :
    (cook t (IAC :: ys)).2.length ≤ ys.length := by
  by_cases hs : t.inSubneg = true
  · cases ys with
    | nil => exact Nat.le_of_eq (congrArg (fun p => p.2.length) (cook_subneg hs).cut)
    | cons c ys =>
      by_cases hc : c = SE
      · rw [hc, (cook_subneg hs).ended]
        exact Nat.le_succ_of_le (cook_length _ ys)
      · rw [(cook_subneg hs).pair hc]
        exact Nat.le_succ_of_le (cook_length _ ys)
  · have ht := eq_false_of_ne_true hs
    cases ys with
    | nil => exact Nat.le_of_eq (congrArg (fun p => p.2.length) (cook_turns ht).cut)
    | cons cmd ys =>
      by_cases hi : cmd = IAC
      · rw [hi, (cook_turns ht).iac]
        exact Nat.succ_le_succ (cook_length _ ys)
      by_cases ho : isNegotiation cmd = true
      · cases ys with
        | nil => rw [(cook_turns ht).optionCut ho]; exact Nat.zero_le _
        | cons opt ys =>
          rw [(cook_turns ht).option ho]
          exact Nat.le_trans (cook_length t ys) (by simp only [List.length_cons]; omega)
      by_cases hb : cmd = SB
      · rw [hb, (cook_turns ht).sb]
        exact Nat.le_succ_of_le (cook_length _ ys)
      · rw [(cook_turns ht).command ⟨hi, eq_false_of_ne_true ho, hb⟩]
        exact Nat.le_succ_of_le (cook_length _ ys)

/-- Neither does a carried negotiation. -/
theorem cook_option_length (ht : t.inSubneg = false) (hc : isNegotiation cmd = true)
    (ys : List UInt8) : (cook t (IAC :: cmd :: ys)).2.length ≤ ys.length := by
  cases ys with
  | nil => exact Nat.le_of_eq (congrArg (fun p => p.2.length) ((cook_turns ht).optionCut hc))
  | cons opt ys =>
    rw [(cook_turns ht).option hc]
    exact Nat.le_succ_of_le (cook_length t ys)

/-- A read puts out no more bytes than it has, whatever was carried to it. -/
theorem read_length (received ys : List UInt8) :
    ((cook freshTelnet received).1.read ys).2.length ≤ ys.length ∧
      (cook freshTelnet received).1.iacCarry.length ≤ 2 := by
  obtain ⟨items, rest, he⟩ := exists_items received
  obtain ⟨cr, hi⟩ := cook_stream items rest
  rw [he, hi]
  unfold Telnet.read
  cases rest with
  | none => exact ⟨cook_length _ ys, Nat.zero_le _⟩
  | iac => exact ⟨cook_iac_length _ ys, Nat.le_succ 1⟩
  | option cmd h => exact ⟨cook_option_length rfl h ys, Nat.le_refl 2⟩
  | subneg body => exact ⟨cook_length _ ys, Nat.zero_le _⟩
  | subnegIac body => exact ⟨cook_iac_length _ ys, Nat.le_succ 1⟩

/-! ## Runs -/

/-- The port has decoded what it has read as one read would have, and lost nothing of it. -/
structure SerialInv (s : SerialRun) : Prop where
  decoded : cook freshTelnet s.received = (s.port.telnet, s.staged)
  order : s.staged = s.delivered ++ s.port.stage
  stage_le : s.port.stage.length ≤ STAGE_SIZE

theorem serialInv_start : SerialInv SerialRun.start := ⟨rfl, rfl, Nat.zero_le _⟩

variable {s : SerialRun}

theorem serialInv_drain (hs : SerialInv s) (rxEmpty room : Bool) :
    SerialInv (s.drainStaging rxEmpty room) := by
  unfold SerialRun.drainStaging
  split
  · refine ⟨hs.decoded, ?_, ?_⟩
    · show s.staged = s.delivered ++ s.port.stage.take 1 ++ s.port.stage.drop 1
      rw [List.append_assoc, List.take_append_drop]
      exact hs.order
    · show (s.port.stage.drop 1).length ≤ STAGE_SIZE
      rw [List.length_drop]
      exact Nat.le_trans (Nat.sub_le _ _) hs.stage_le
  · exact hs

/-- A read, with nothing staged. -/
theorem serialInv_recv (hs : SerialInv s) (hempty : s.port.stage = []) (chunk : Chunk) :
    SerialInv (s.recv chunk.1) := by
  have hlen := (read_length s.received chunk.1).1
  have hread := cook_read s.received chunk.1
  rw [hs.decoded] at hlen hread
  have hfit : (s.port.telnet.read chunk.1).2.take
      (min (s.port.telnet.read chunk.1).2.length (STAGE_SIZE - s.port.stage.length)) =
      (s.port.telnet.read chunk.1).2 := by
    have hstage : (s.port.telnet.read chunk.1).2.length ≤ STAGE_SIZE :=
      Nat.le_trans (Nat.le_trans hlen chunk.2.2) (by decide)
    rw [hempty, List.length_nil, Nat.sub_zero, Nat.min_eq_left hstage, List.take_length]
  refine ⟨hread.trans ?_, ?_, ?_⟩
  · exact Prod.ext rfl (congrArg (s.staged ++ ·) hfit.symm)
  · show s.staged ++ _ = s.delivered ++ (s.port.stage ++ _)
    rw [← List.append_assoc, hs.order]
  · have hstage : (s.recv chunk.1).port.stage = s.port.stage ++ (s.port.telnet.read chunk.1).2 :=
      congrArg (s.port.stage ++ ·) hfit
    rw [hstage, hempty, List.nil_append]
    exact Nat.le_trans (Nat.le_trans hlen chunk.2.2) (by decide)

theorem serialInv_execute (hs : SerialInv s) (turn : Turn) : SerialInv (s.execute turn) := by
  have hd := serialInv_drain hs turn.rxEmpty turn.room
  unfold SerialRun.execute
  generalize s.drainStaging turn.rxEmpty turn.room = d at hd ⊢
  dsimp only
  have hz : SerialInv { d with port := { d.port with cycles := 0 } } :=
    ⟨hd.decoded, hd.order, hd.stage_le⟩
  split
  · split
    · exact hz
    · rename_i hempty
      cases turn.socket with
      | none => exact hz
      | some chunk => exact serialInv_recv hz (Classical.not_not.1 hempty) chunk
  · exact ⟨hd.decoded, hd.order, hd.stage_le⟩

theorem serialInv_run (turns : List Turn) : SerialInv (SerialRun.run turns) := by
  unfold SerialRun.run
  generalize hs : SerialRun.start = s
  have hinv : SerialInv s := hs ▸ serialInv_start
  clear hs
  induction turns generalizing s with
  | nil => exact hinv
  | cons turn turns ih => exact ih _ (serialInv_execute hinv turn)

/-! ### Any reads may come -/

/-- A turn that finds the UART free and nothing to read. -/
def idleTurn : Turn := ⟨true, true, none⟩

theorem execute_idle (s : SerialRun) :
    (s.execute idleTurn).received = s.received ∧
      (s.execute idleTurn).port.stage = s.port.stage.drop 1 ∧
      (s.execute idleTurn).port.cycles =
        if RECV_TICKS ≤ s.port.cycles + 1 then 0 else s.port.cycles + 1 := by
  unfold SerialRun.execute
  dsimp only
  have hcycles : (s.drainStaging idleTurn.rxEmpty idleTurn.room).port.cycles = s.port.cycles := rfl
  rw [hcycles]
  by_cases hc : RECV_TICKS ≤ s.port.cycles + 1
  · rw [if_pos hc, if_pos hc]
    split <;> exact ⟨rfl, rfl, rfl⟩
  · rw [if_neg hc, if_neg hc]
    exact ⟨rfl, rfl, rfl⟩

theorem exists_drained (s : SerialRun) : ∃ turns : List Turn,
    (turns.foldl SerialRun.execute s).received = s.received ∧
      (turns.foldl SerialRun.execute s).port.stage = [] := by
  induction hn : s.port.stage.length generalizing s with
  | zero => exact ⟨[], rfl, List.length_eq_zero_iff.1 hn⟩
  | succ n ih =>
    obtain ⟨hr, hs, -⟩ := execute_idle s
    obtain ⟨turns, hr', hs'⟩ := ih (s.execute idleTurn) (by rw [hs, List.length_drop, hn]; rfl)
    exact ⟨idleTurn :: turns, hr'.trans hr, hs'⟩

/-- Idle turns bring the next read up. -/
theorem exists_due (s : SerialRun) (hs : s.port.stage = []) : ∃ turns : List Turn,
    (turns.foldl SerialRun.execute s).received = s.received ∧
      (turns.foldl SerialRun.execute s).port.stage = [] ∧
      RECV_TICKS ≤ (turns.foldl SerialRun.execute s).port.cycles + 1 := by
  induction hn : RECV_TICKS - (s.port.cycles + 1) generalizing s with
  | zero => exact ⟨[], rfl, hs, Nat.le_of_sub_eq_zero hn⟩
  | succ n ih =>
    obtain ⟨hr, hstage, hc⟩ := execute_idle s
    rw [if_neg (by omega)] at hc
    obtain ⟨turns, hr', hs', hc'⟩ := ih (s.execute idleTurn)
      (by rw [hstage, hs]; rfl) (by rw [hc]; omega)
    exact ⟨idleTurn :: turns, hr'.trans hr, hs', hc'⟩

theorem execute_read (s : SerialRun) (hs : s.port.stage = [])
    (hc : RECV_TICKS ≤ s.port.cycles + 1) (chunk : Chunk) :
    (s.execute ⟨true, true, some chunk⟩).received = s.received ++ chunk.1 := by
  unfold SerialRun.execute
  dsimp only
  have hd : (s.drainStaging true true).port.stage = [] := by
    show s.port.stage.drop 1 = []
    rw [hs]
    rfl
  rw [if_pos (show RECV_TICKS ≤ (s.drainStaging true true).port.cycles + 1 from hc),
    if_neg (Classical.not_not.2 hd)]
  rfl

/-- Whatever the client sends and however it is cut, there is a run that reads it so. -/
theorem exists_run (chunks : List Chunk) : ∃ turns : List Turn,
    (SerialRun.run turns).received = (chunks.map Subtype.val).flatten := by
  suffices h : ∀ s : SerialRun, ∃ turns : List Turn, (turns.foldl SerialRun.execute s).received =
      s.received ++ (chunks.map Subtype.val).flatten from h SerialRun.start
  induction chunks with
  | nil => exact fun s => ⟨[], (List.append_nil _).symm⟩
  | cons chunk chunks ih =>
    intro s
    obtain ⟨a, ha, hstage⟩ := exists_drained s
    obtain ⟨b, hb, hstage', hdue⟩ := exists_due _ hstage
    have hread := execute_read _ hstage' hdue chunk
    obtain ⟨c, hc⟩ := ih ((b.foldl SerialRun.execute (a.foldl SerialRun.execute s)).execute
      ⟨true, true, some chunk⟩)
    refine ⟨a ++ b ++ ⟨true, true, some chunk⟩ :: c, ?_⟩
    rw [List.foldl_append, List.foldl_append, List.foldl_cons, hc, hread, hb, ha, List.map_cons,
      List.flatten_cons, List.append_assoc]

/-- Whatever a client sends and however it is cut into reads, there is a run that reads it so; and
in every run the stream so far is items and a rest, and however it is so taken apart, the bytes
staged are the items' data less the NULs behind CR, `breakHit` is set if and only if BREAK is one of
the items, and what is carried is the command that the rest is cut in. It is two bytes at most;
every byte staged has been handed to the UART in order or is still staged; and no read overruns
`raw`, `cbuffer` or the staging buffer. -/
theorem telnet_decoded :
    (∀ chunks : List Chunk, ∃ turns : List Turn,
      (SerialRun.run turns).received = (chunks.map Subtype.val).flatten) ∧
    ∀ turns : List Turn,
      (∃ (items : List TelnetItem) (rest : TelnetRest),
        (SerialRun.run turns).received = items.flatMap TelnetItem.bytes ++ rest.bytes) ∧
      (∀ (items : List TelnetItem) (rest : TelnetRest),
        (SerialRun.run turns).received = items.flatMap TelnetItem.bytes ++ rest.bytes →
          (SerialRun.run turns).staged = dropNul false (items.filterMap TelnetItem.payload) ∧
          (SerialRun.run turns).port.telnet.breakHit = items.any TelnetItem.isBreak ∧
          (SerialRun.run turns).port.telnet.iacCarry = rest.carry ∧
          (SerialRun.run turns).port.telnet.inSubneg = rest.isOpen) ∧
      (SerialRun.run turns).port.telnet.iacCarry.length ≤ 2 ∧
      (SerialRun.run turns).staged =
        (SerialRun.run turns).delivered ++ (SerialRun.run turns).port.stage ∧
      (SerialRun.run turns).port.stage.length ≤ STAGE_SIZE ∧
      ∀ chunk : Chunk,
        (SerialRun.run turns).port.telnet.iacCarry.length + chunk.1.length ≤ FIFO_SIZE + 16 ∧
        ((SerialRun.run turns).port.telnet.read chunk.1).2.length ≤ FIFO_SIZE := by
  refine ⟨exists_run, fun turns => ?_⟩
  have hinv := serialInv_run turns
  generalize SerialRun.run turns = s at hinv ⊢
  have hcarry : s.port.telnet.iacCarry.length ≤ 2 := by
    have h := (read_length s.received []).2
    rwa [hinv.decoded] at h
  refine ⟨exists_items s.received, fun items rest he => ?_, hcarry, hinv.order, hinv.stage_le,
    fun chunk => ⟨?_, ?_⟩⟩
  · obtain ⟨cr, hi⟩ := cook_stream items rest
    have hd := hinv.decoded
    rw [he, hi] at hd
    obtain ⟨ht, hstaged⟩ := Prod.mk.inj hd
    rw [← ht]
    exact ⟨hstaged.symm, rfl, rfl, rfl⟩
  · have hlen := chunk.2.2
    omega
  · have h := (read_length s.received chunk.1).1
    rw [hinv.decoded] at h
    exact Nat.le_trans h chunk.2.2

end Alphabox.Isa
