import Alphabox.System.ConfigNumber

/-!
# Numeric values of a configuration: exact sums

`Tracks` relates the wrapping computation to unbounded arithmetic: while the flag is clear both
hold the same numbers, and once it is set the exact sum is past 64 bits for good, as no group
makes it smaller.
-/

namespace Alphabox.System

/-! ## The flag -/

/-- The total and the part stand for `t` and `p`, or the flag says that they are too large. -/
def Tracks (overflow : Bool) (total part : UInt64) (t p : Nat) : Prop :=
  if overflow then 2 ^ 64 ≤ t + p else total.toNat = t ∧ part.toNat = p

section

variable {overflow : Bool} {total part : UInt64} {t p : Nat}

theorem toNat_u64Max : u64Max.toNat = 2 ^ 64 - 1 := by decide

/-- A step that only makes the exact sum larger, with a test that is exact while the flag is
clear. -/
theorem Tracks.step {total' part' : UInt64} {t' p' : Nat} {test : Bool}
    (h : Tracks overflow total part t p) (hmono : t + p ≤ t' + p')
    (hover : total.toNat = t → part.toNat = p → test = true → 2 ^ 64 ≤ t' + p')
    (hfit : total.toNat = t → part.toNat = p → test = false →
      total'.toNat = t' ∧ part'.toNat = p') :
    Tracks (overflow || test) total' part' t' p' := by
  unfold Tracks at *
  cases overflow with
  | true => exact Nat.le_trans h hmono
  | false =>
    obtain ⟨ht, hp⟩ := h
    cases test with
    | true => exact hover ht hp rfl
    | false => exact hfit ht hp rfl

theorem gt_iff_toNat {a b : UInt64} : decide (a > b) = true ↔ b.toNat < a.toNat := by
  rw [decide_eq_true_eq, gt_iff_lt, UInt64.lt_iff_toNat_lt]

theorem not_gt_iff_toNat {a b : UInt64} : decide (a > b) = false ↔ a.toNat ≤ b.toNat := by
  rw [decide_eq_false_iff_not, gt_iff_lt, UInt64.lt_iff_toNat_lt, Nat.not_lt]

theorem toNat_u64Max_sub (d : UInt64) : (u64Max - d).toNat = 2 ^ 64 - 1 - d.toNat := by
  rw [UInt64.toNat_sub_of_le, toNat_u64Max]
  rw [UInt64.le_iff_toNat_le, toNat_u64Max]
  exact Nat.le_sub_one_of_lt d.toNat_lt

theorem Tracks.digit {d : UInt64} (hd : d.toNat < 10) (h : Tracks overflow total part t p) :
    Tracks (overflow || part > (u64Max - d) / 10) total (part * 10 + d) t (p * 10 + d.toNat) := by
  have hlim : ((u64Max - d) / 10).toNat = (2 ^ 64 - 1 - d.toNat) / 10 := by
    rw [UInt64.toNat_div, toNat_u64Max_sub]
    rfl
  refine h.step (by omega) (fun ht hp htest => ?_) (fun ht hp htest => ⟨ht, ?_⟩)
  · rw [gt_iff_toNat, hlim] at htest
    omega
  · rw [not_gt_iff_toNat, hlim] at htest
    have h10 : (part * 10).toNat = p * 10 := by
      rw [UInt64.toNat_mul, hp]
      exact Nat.mod_eq_of_lt (show p * 10 < 2 ^ 64 by omega)
    rw [UInt64.toNat_add, h10]
    exact Nat.mod_eq_of_lt (by omega)

theorem Tracks.unit {unit : UInt64} (hu : 0 < unit.toNat) (h : Tracks overflow total part t p) :
    Tracks (overflow || part > u64Max / unit) total (part * unit) t (p * unit.toNat) := by
  have hlim : (u64Max / unit).toNat = (2 ^ 64 - 1) / unit.toNat := by
    rw [UInt64.toNat_div, toNat_u64Max]
  refine h.step (Nat.add_le_add_left (Nat.le_mul_of_pos_right p hu) t) (fun ht hp htest => ?_)
    (fun ht hp htest => ⟨ht, ?_⟩)
  · rw [gt_iff_toNat, hlim, Nat.div_lt_iff_lt_mul hu, hp] at htest
    omega
  · rw [not_gt_iff_toNat, hlim, Nat.le_div_iff_mul_le hu, hp] at htest
    rw [UInt64.toNat_mul, hp]
    exact Nat.mod_eq_of_lt (by omega)

theorem Tracks.sum (h : Tracks overflow total part t p) :
    Tracks (overflow || total > u64Max - part) (total + part) 0 (t + p) 0 := by
  refine h.step (Nat.le_refl _) (fun ht hp htest => ?_) (fun ht hp htest => ⟨?_, rfl⟩)
  · rw [gt_iff_toNat, toNat_u64Max_sub] at htest
    omega
  · rw [not_gt_iff_toNat, toNat_u64Max_sub] at htest
    have hlt := part.toNat_lt
    rw [UInt64.toNat_add, ht, hp]
    exact Nat.mod_eq_of_lt (by omega)

theorem Tracks.scale {unit : UInt64} (hu : 0 < unit.toNat) (n : Nat)
    (h : Tracks overflow total part t p) :
    Tracks (scale unit n overflow part).1 total (scale unit n overflow part).2 t
      (p * unit.toNat ^ n) := by
  induction n generalizing overflow part p with
  | zero => rwa [pow_zero, Nat.mul_one]
  | succ n ih =>
    rw [pow_succ', ← Nat.mul_assoc]
    exact ih (h.unit hu)

end

/-! ## Digits -/

theorem digitByte_spec : ∀ d : Fin 10, isDigit (digitByte d) = true ∧
    (digitByte d - 0x30).toUInt64.toNat = d.val := by
  decide

theorem isDigit_spec {c : UInt8} (h : isDigit c = true) : ∃ d, c = digitByte d := by
  rw [isDigit, Bool.and_eq_true, decide_eq_true_eq, decide_eq_true_eq, UInt8.le_iff_toNat_le,
    UInt8.le_iff_toNat_le] at h
  obtain ⟨h1, h2⟩ : 48 ≤ c.toNat ∧ c.toNat ≤ 57 := h
  refine ⟨⟨c.toNat - 48, by omega⟩, UInt8.toNat_inj.1 ?_⟩
  rw [digitByte, UInt8.toNat_add, UInt8.toNat_ofNat']
  show c.toNat = (48 + (c.toNat - 48) % 256) % 256
  omega

theorem suffixByte_spec : ∀ k : Fin 4, isDigit (suffixByte k) = false ∧
    suffixPlace (suffixByte k) = some (k.val + 1) := by
  decide

theorem suffixPlace_spec {c : UInt8} {n : Nat} (h : suffixPlace c = some n) :
    ∃ k, c = suffixByte k ∧ n = k.val + 1 := by
  unfold suffixPlace at h
  split at h
  · exact ⟨0, ‹_›, (Option.some.inj h).symm⟩
  · split at h
    · exact ⟨1, ‹_›, (Option.some.inj h).symm⟩
    · split at h
      · exact ⟨2, ‹_›, (Option.some.inj h).symm⟩
      · split at h
        · exact ⟨3, ‹_›, (Option.some.inj h).symm⟩
        · cases h

/-- Written digits are read to their end. -/
theorem scanDigits_digits (ds : List (Fin 10)) {rest : Bytes}
    (hrest : ∀ c ∈ rest.head?, isDigit c = false) {overflow : Bool} {total part : UInt64} {t p : Nat}
    (h : Tracks overflow total part t p) :
    ∃ o q, scanDigits overflow part (ds.map digitByte ++ rest) = (o, q, rest) ∧
      Tracks o total q t (ds.foldl (fun n d => n * 10 + d.val) p) := by
  induction ds generalizing overflow part p with
  | nil =>
    refine ⟨overflow, part, ?_, h⟩
    cases rest with
    | nil => rfl
    | cons c rest => simp [scanDigits, hrest c rfl]
  | cons d ds ih =>
    obtain ⟨hdig, hval⟩ := digitByte_spec d
    have hstep := h.digit (d := (digitByte d - 0x30).toUInt64) (by omega)
    rw [hval] at hstep
    rw [List.map_cons, List.cons_append, scanDigits, if_pos hdig]
    exact ih hstep

/-- What is read is written digits, and no digit follows. -/
theorem scanDigits_parse (text : Bytes) (overflow : Bool) (part : UInt64) :
    ∃ ds : List (Fin 10), text = ds.map digitByte ++ (scanDigits overflow part text).2.2 ∧
      ∀ c ∈ (scanDigits overflow part text).2.2.head?, isDigit c = false := by
  induction text generalizing overflow part with
  | nil => exact ⟨[], rfl, fun _ h => by cases h⟩
  | cons c rest ih =>
    rw [scanDigits]
    split
    · rename_i hc
      obtain ⟨d, rfl⟩ := isDigit_spec hc
      obtain ⟨ds, hds, hhead⟩ := ih _ _
      exact ⟨d :: ds, congrArg (digitByte d :: ·) hds, hhead⟩
    · rename_i hc
      refine ⟨[], rfl, fun x hx => ?_⟩
      obtain rfl := Option.some.inj hx
      simpa using hc

/-! ## Groups -/

/-- Groups that may be read one after the other: each has digits, and a group after another comes
after its suffix. -/
def Groups : List NumGroup → Prop
  | [] => True
  | g :: gs => g.digits ≠ [] ∧ (gs ≠ [] → g.suffix ≠ none) ∧ Groups gs

theorem groups_iff {gs : List NumGroup} : Groups gs ↔
    (∀ g ∈ gs, g.digits ≠ []) ∧ ∀ g ∈ gs.dropLast, g.suffix ≠ none := by
  induction gs with
  | nil => simp [Groups]
  | cons g gs ih =>
    rw [Groups, ih]
    cases gs with
    | nil => simp
    | cons g' gs => simp [and_assoc, and_left_comm]

theorem isNumber_iff {gs : List NumGroup} : IsNumber gs ↔ gs ≠ [] ∧ Groups gs := by
  rw [groups_iff]
  exact ⟨fun h => ⟨h.groups, h.digits, h.suffixes⟩, fun h => ⟨h.1, h.2.1, h.2.2⟩⟩

section

variable {unit : UInt64} {overflow : Bool} {total : UInt64} {t : Nat}

theorem scanGroups_last {c : UInt8} {cs : Bytes} {o : Bool} {p : UInt64} (hc : isDigit c = true)
    (h : scanDigits overflow 0 (c :: cs) = (o, p, [])) :
    scanGroups unit overflow total (c :: cs) = .ok (o || total > u64Max - p, total + p) := by
  rw [scanGroups, hc, Bool.not_true, if_neg Bool.false_ne_true]
  split
  · rename_i heq
    rw [h] at heq
    obtain ⟨rfl, rfl, -⟩ := heq
    rfl
  · rename_i heq
    rw [h] at heq
    cases heq

theorem scanGroups_suffix {c s : UInt8} {cs rest : Bytes} {o : Bool} {p : UInt64}
    (hc : isDigit c = true) (h : scanDigits overflow 0 (c :: cs) = (o, p, s :: rest)) :
    scanGroups unit overflow total (c :: cs) = match suffixPlace s with
      | none => .error .form
      | some n => scanGroups unit ((scale unit n o p).1 || total > u64Max - (scale unit n o p).2)
          (total + (scale unit n o p).2) rest := by
  rw [scanGroups, hc, Bool.not_true, if_neg Bool.false_ne_true]
  split
  · rename_i heq
    rw [h] at heq
    cases heq
  · rename_i heq
    rw [h] at heq
    obtain ⟨rfl, rfl, rfl, rfl⟩ := heq
    rfl

/-- Groups as they are written are read, and the result tracks their exact sum. -/
theorem scanGroups_text (hu : 0 < unit.toNat) (gs : List NumGroup) (hgs : Groups gs)
    (h : Tracks overflow total 0 t 0) : ∃ o v, scanGroups unit overflow total (numText gs) = .ok (o, v) ∧
      Tracks o v 0 (t + numSum unit.toNat gs) 0 := by
  induction gs generalizing overflow total t with
  | nil =>
    refine ⟨overflow, total, ?_, h⟩
    rw [show numText [] = [] from rfl, scanGroups]
  | cons g gs ih =>
    obtain ⟨ds, suffix⟩ := g
    obtain ⟨hds, hsuf, hgs⟩ := hgs
    obtain ⟨d, ds, rfl⟩ := List.exists_cons_of_ne_nil hds
    have hc := (digitByte_spec d).1
    cases suffix with
    | none =>
      obtain rfl : gs = [] := by
        by_contra hne
        exact hsuf hne rfl
      obtain ⟨o, q, hscan, hq⟩ := @scanDigits_digits (d :: ds) [] (fun _ h => by cases h) _ _ _ _ _ h
      have htext : numText [⟨d :: ds, none⟩] = (d :: ds).map digitByte ++ [] := by
        simp [numText, NumGroup.text]
      rw [htext]
      refine ⟨_, _, scanGroups_last hc hscan, ?_⟩
      have := hq.sum
      simpa [numSum, NumGroup.value] using this
    | some k =>
      obtain ⟨hk, hplace⟩ := suffixByte_spec k
      obtain ⟨o, q, hscan, hq⟩ := @scanDigits_digits (d :: ds) (suffixByte k :: numText gs)
        (fun c hc => by rw [← Option.some.inj hc]; exact hk) _ _ _ _ _ h
      have htext : numText (⟨d :: ds, some k⟩ :: gs) =
          (d :: ds).map digitByte ++ suffixByte k :: numText gs := by
        simp [numText, NumGroup.text]
      obtain ⟨o', v, hrest, hv⟩ := ih hgs (hq.scale hu (k.val + 1)).sum
      refine ⟨o', v, ?_, ?_⟩
      · rw [htext]
        refine (scanGroups_suffix hc hscan).trans ?_
        rw [hplace]
        exact hrest
      · simpa [numSum, NumGroup.value, Nat.add_assoc] using hv

/-- What is read is groups as they are written. -/
theorem scanGroups_parse {text : Bytes} {r : Bool × UInt64}
    (h : scanGroups unit overflow total text = .ok r) : ∃ gs, Groups gs ∧ text = numText gs := by
  induction hn : text.length using Nat.strongRecOn generalizing overflow total text with
  | _ n ih =>
    cases text with
    | nil => exact ⟨[], trivial, rfl⟩
    | cons c cs =>
      by_cases hc : isDigit c = true
      · obtain ⟨ds, hds, hhead⟩ := scanDigits_parse (c :: cs) overflow 0
        generalize hscan : scanDigits overflow 0 (c :: cs) = x at hds hhead
        obtain ⟨o, p, rest⟩ := x
        have hne : ds ≠ [] := by
          rintro rfl
          rw [← show c :: cs = rest from hds] at hhead
          exact absurd hc (by rw [hhead c rfl]; exact Bool.false_ne_true)
        cases rest with
        | nil =>
          exact ⟨[⟨ds, none⟩], ⟨hne, fun h => absurd rfl h, trivial⟩,
            hds.trans (by simp [numText, NumGroup.text])⟩
        | cons s rest =>
          rw [scanGroups_suffix hc hscan] at h
          split at h
          · cases h
          · rename_i hplace
            obtain ⟨k, rfl, -⟩ := suffixPlace_spec hplace
            obtain ⟨gs, hgs, rfl⟩ := ih _ (hn ▸ length_of_scanDigits hscan) h rfl
            exact ⟨⟨ds, some k⟩ :: gs, ⟨hne, fun _ h => (by cases h), hgs⟩,
              hds.trans (by simp [numText, NumGroup.text])⟩
      · rw [scanGroups, if_pos (by simpa using hc)] at h
        cases h

end

/-! ## The value -/

theorem numUnit_pos (decimal : Bool) : 0 < (numUnit decimal).toNat := by
  cases decimal <;> decide

/-- A value is read as `v` exactly when it is a number and `v` its exact sum. -/
theorem numValue_iff {decimal : Bool} {text : Bytes} {v : UInt64} : numValue decimal text = .ok v ↔
    ∃ gs, IsNumber gs ∧ text = numText gs ∧ numSum (numUnit decimal).toNat gs = v.toNat := by
  unfold numValue
  split
  · rename_i hnil
    refine ⟨fun h => (by cases h), fun h => ?_⟩
    obtain ⟨gs, hgs, htext, -⟩ := h
    obtain ⟨hne, hg⟩ := isNumber_iff.1 hgs
    obtain ⟨g, gs, rfl⟩ := List.exists_cons_of_ne_nil hne
    obtain ⟨d, ds, hds⟩ := List.exists_cons_of_ne_nil hg.1
    rw [hnil] at htext
    simp [numText, NumGroup.text, hds] at htext
  · rename_i hnil
    have hstart : Tracks false 0 0 0 0 := ⟨rfl, rfl⟩
    constructor
    · intro h
      obtain ⟨⟨o, total⟩, hscan, h⟩ := ConfigLexer.bind_ok h
      obtain ⟨gs, hgs, rfl⟩ := scanGroups_parse hscan
      obtain ⟨o', total', htext, htracks⟩ := scanGroups_text (numUnit_pos decimal) gs hgs hstart
      obtain ⟨rfl, rfl⟩ := Prod.mk.inj (Except.ok.inj (htext.symm.trans hscan))
      refine ⟨gs, isNumber_iff.2 ⟨fun h => hnil (by rw [h]; rfl), hgs⟩, rfl, ?_⟩
      cases o' with
      | true => cases h
      | false =>
        obtain rfl := Except.ok.inj h
        simpa using htracks.1.symm
    · intro ⟨gs, hgs, htext, hsum⟩
      subst htext
      obtain ⟨o, total, htext, htracks⟩ :=
        scanGroups_text (numUnit_pos decimal) gs (isNumber_iff.1 hgs).2 hstart
      have hlt := v.toNat_lt
      cases o with
      | true =>
        have : 2 ^ 64 ≤ 0 + numSum (numUnit decimal).toNat gs + 0 := htracks
        omega
      | false =>
        obtain rfl : total = v := UInt64.toNat_inj.1 (by rw [htracks.1, Nat.zero_add, hsum])
        rw [htext]
        rfl

/-- **Numeric values.** The default, for a name that is not there; else the exact sum of the groups
the value is made of, when it is made of such and the sum fits. Nothing else is returned. -/
theorem get_num_value_exact (values : List ConfigValue) (n : Bytes) (decimal : Bool)
    (dflt v : UInt64) : getNumValue values n decimal dflt = .ok v ↔
      match values.find? (·.name == n) with
      | none => v = dflt
      | some x => ∃ gs, IsNumber gs ∧ x.value = numText gs ∧
          numSum (if decimal then 1000 else 1024) gs = v.toNat := by
  unfold getNumValue
  generalize values.find? (·.name == n) = found
  cases found with
  | none => exact ⟨fun h => (Except.ok.inj h).symm, fun h => congrArg _ h.symm⟩
  | some x =>
    dsimp only
    rw [show (if decimal then 1000 else 1024) = (numUnit decimal).toNat by cases decimal <;> rfl,
      ← numValue_iff]
    cases numValue decimal x.value with
    | ok w => exact ⟨fun h => congrArg _ (Except.ok.inj h), fun h => congrArg _ (Except.ok.inj h)⟩
    | error e => exact ⟨fun h => (by cases h), fun h => (by cases h)⟩

end Alphabox.System
