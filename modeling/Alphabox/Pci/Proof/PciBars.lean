import Alphabox.Lib.Bits
import Alphabox.Lib.Reach
import Alphabox.Pci.PciDevice

/-!
# A PCI device decodes where its registers say

`called` is the range a BAR's register calls for: its kind by bit 0, its size from the bits that can
be written and its base from the register, in numbers (`rangeOf`). `register_bar` comes to the same
(`rangeOf_eq`). Every operation either registers it or leaves
the registrations alone (`PciHistory.registered_step`), so the registrations follow the registers
as long as no operation takes an address away from a BAR (`PciHistory.Safe`): `register_bar`
never withdraws a range.
-/

namespace Alphabox.Pci

/-! ## Bytes and longwords -/

namespace ConfigBytes

variable {x : ConfigBytes} {a k : Nat}

theorem append_extract (v : BitVec 32) : v.extractLsb' 24 8 ++ v.extractLsb' 16 8 ++
    v.extractLsb' 8 8 ++ v.extractLsb' 0 8 = v := by
  refine BitVec.eq_of_getLsbD_eq fun i hi => ?_
  simp only [BitVec.getLsbD_append, BitVec.getLsbD_extractLsb']
  split_ifs
  all_goals rw [decide_eq_true (by omega), Bool.true_and]
  all_goals congr 1; omega

theorem extract_append (b₃ b₂ b₁ b₀ : BitVec 8) (hk : k < 4) :
    (b₃ ++ b₂ ++ b₁ ++ b₀ : BitVec 32).extractLsb' (8 * k) 8 =
      if k = 0 then b₀ else if k = 1 then b₁ else if k = 2 then b₂ else b₃ := by
  refine BitVec.eq_of_getLsbD_eq fun i hi => ?_
  simp only [BitVec.getLsbD_append, BitVec.getLsbD_extractLsb', hi, decide_true, Bool.true_and]
  split_ifs
  all_goals first | omega | (congr 1; omega)

theorem store_apply (size : PciSize) (v : BitVec 32) :
    x.store a size v k =
      if a ≤ k ∧ k < a + size.bytes then v.extractLsb' (8 * (k - a)) 8 else x k :=
  rfl

theorem load_store_long (v : BitVec 32) : (x.store a .long v).load a .long = v := by
  have hbyte {i : Nat} (hi : i < 4) : x.store a .long v (a + i) = v.extractLsb' (8 * i) 8 := by
    rw [store_apply, if_pos ⟨Nat.le_add_right a i, Nat.add_lt_add_left hi a⟩,
      Nat.add_sub_cancel_left]
  show x.store a .long v (a + 3) ++ x.store a .long v (a + 2) ++ x.store a .long v (a + 1) ++
    x.store a .long v (a + 0) = v
  rw [hbyte (by decide), hbyte (by decide), hbyte (by decide), hbyte (by decide)]
  exact append_extract v

theorem store_load_long : x.store a .long (x.load a .long) = x := by
  funext k
  rw [store_apply]
  split
  · rename_i hk
    have hlt : k - a < 4 := by
      have := hk.2
      simp only [PciSize.bytes] at this
      omega
    rw [load, extract_append _ _ _ _ hlt]
    split_ifs
    all_goals congr 1; omega
  · rfl

end ConfigBytes

/-! ## What a register calls for -/

/-- An assigned address: neither nothing nor the size probe. -/
def Assigned (data mask : BitVec 32) : Prop := data &&& mask ≠ 0 ∧ data &&& mask ≠ mask

/-- The size probe. -/
def Probe (data mask : BitVec 32) : Prop := mask ≠ 0 ∧ data &&& mask = mask

instance (data mask : BitVec 32) : Decidable (Assigned data mask) :=
  inferInstanceAs (Decidable (_ ∧ _))

instance (data mask : BitVec 32) : Decidable (Probe data mask) :=
  inferInstanceAs (Decidable (_ ∧ _))

/-- Where the address in a BAR's register begins: at bit 11 in the expansion ROM's, else at bit 2 or
4, as bit 0 says that it is in I/O or in memory space. -/
def addressBit (bar : Fin 7) (data : BitVec 32) : Nat :=
  if bar = 6 then 11 else if data.getLsbD 0 then 2 else 4

/-- The address in a register whose address begins at bit `low`. -/
def addressIn (low : Nat) (x : BitVec 32) : Nat := x.toNat / 2 ^ low * 2 ^ low

/-- The size of a range: how far the address bits that can be written fall short of 2^32. -/
def barSize (low : Nat) (mask : BitVec 32) : Nat :=
  if addressIn low mask = 0 then 2 ^ low else 2 ^ 32 - addressIn low mask

/-- Where it begins: at the address in those bits. -/
def barBase (low : Nat) (data mask : BitVec 32) : Nat :=
  addressIn low (if addressIn low mask = 0 then data else data &&& mask)

/-- The range of an address in a BAR: in the space bit 0 says, the ROM's in memory while it is
enabled. -/
def rangeOf (bar : Fin 7) (data mask : BitVec 32) : Option PciRange :=
  if bar = 6 ∧ data.getLsbD 0 = false then none
  else some
    { space := if bar ≠ 6 ∧ data.getLsbD 0 = true then .io else .mem
      base := BitVec.ofNat 32 (barBase (addressBit bar data) data mask)
      length := barSize (addressBit bar data) mask }

/-- `register_bar`'s sizes and bases. -/
theorem barRange_eq (space : PciSpace) {low : Nat} (hlow : low < 32)
    {addressMask smallest : BitVec 32} (hmask : addressMask = BitVec.allOnes 32 <<< low)
    (hsmall : smallest.toNat = 2 ^ low) (halign : ~~~(smallest - 1) = addressMask)
    (data mask : BitVec 32) : barRange space addressMask smallest data mask =
      ⟨space, BitVec.ofNat 32 (barBase low data mask), barSize low mask⟩ := by
  have hhigh (x : BitVec 32) : (x &&& addressMask).toNat = addressIn low x := by
    rw [hmask]
    exact Lib.toNat_and_high x low
  have haddress (x : BitVec 32) : x &&& addressMask = BitVec.ofNat 32 (addressIn low x) := by
    rw [← hhigh, BitVec.ofNat_toNat, BitVec.setWidth_eq]
  have hprobed : ~~~(mask &&& addressMask) + 1 = -(mask &&& addressMask) :=
    (BitVec.neg_eq_not_add _).symm
  unfold barRange barSize barBase
  by_cases hzero : addressIn low mask = 0
  · -- no address bit can be written: the probe overflows to 0, and the least size is taken
    have hw : mask &&& addressMask = 0 := by rw [haddress, hzero]; rfl
    have hlt : ~~~(mask &&& addressMask) + 1 < smallest := by
      rw [hw, BitVec.lt_def, hsmall]
      exact Nat.two_pow_pos low
    have hbase : data &&& addressMask &&& addressMask = BitVec.ofNat 32 (addressIn low data) := by
      rw [BitVec.and_assoc, BitVec.and_self, haddress]
    simp only [if_pos hlt, if_pos hzero, halign, hbase, hsmall]
  · have hsize : (-(mask &&& addressMask)).toNat = 2 ^ 32 - addressIn low mask := by
      rw [BitVec.toNat_neg, hhigh]
      omega
    have hbits : ~~~(-(mask &&& addressMask) - 1) = mask &&& addressMask := by
      rw [← hprobed, BitVec.add_sub_cancel, BitVec.not_not]
    -- the address bits make a multiple of the least size, and so does what is left
    have hge : ¬-(mask &&& addressMask) < smallest := by
      rw [BitVec.lt_def, hsize, hsmall, Nat.not_lt]
      have hlt : addressIn low mask < 2 ^ 32 :=
        Nat.lt_of_le_of_lt (Nat.div_mul_le_self _ _) mask.isLt
      have hdvd : 2 ^ low ∣ 2 ^ 32 - addressIn low mask :=
        Nat.dvd_sub (Nat.pow_dvd_pow 2 hlow.le) (Nat.dvd_mul_left _ _)
      exact Nat.le_of_dvd (Nat.sub_pos_of_lt hlt) hdvd
    have hbase : data &&& addressMask &&& (mask &&& addressMask) = data &&& mask &&& addressMask := by
      rw [BitVec.and_assoc, ← BitVec.and_assoc addressMask, BitVec.and_comm addressMask mask,
        BitVec.and_assoc mask, BitVec.and_self, ← BitVec.and_assoc]
    simp only [hprobed, if_neg hge, if_neg hzero, hbits, hsize, hbase, haddress (data &&& mask)]

/-- `register_bar` calls for the range of the address. -/
theorem rangeOf_eq (bar : Fin 7) (data mask : BitVec 32) : rangeOf bar data mask =
    if bar = 6 then
      if data &&& PCI_ROM_ADDRESS_ENABLE = 0 then none else some (romRange data mask)
    else if data &&& 1 ≠ 0 then some (ioRange data mask) else some (memRange data mask) := by
  have hbit : data &&& 1 ≠ 0 ↔ data.getLsbD 0 = true :=
    Lib.and_twoPow_ne_zero (show 0 < 32 by decide)
  have hrom : data &&& PCI_ROM_ADDRESS_ENABLE = 0 ↔ data.getLsbD 0 = false := by
    rw [← not_iff_not, Bool.not_eq_false]
    exact hbit
  simp only [rangeOf, addressBit, romRange, ioRange, memRange, hbit, hrom,
    barRange_eq .mem (show 11 < 32 by decide) (show PCI_ROM_ADDRESS_MASK = _ by decide)
      (show (0x800 : BitVec 32).toNat = _ by decide) (by decide),
    barRange_eq .io (show 2 < 32 by decide) (show PCI_IO_ADDRESS_MASK = _ by decide)
      (show (4 : BitVec 32).toNat = _ by decide) (by decide),
    barRange_eq .mem (show 4 < 32 by decide) (show PCI_MEM_ADDRESS_MASK = _ by decide)
      (show (0x10 : BitVec 32).toNat = _ by decide) (by decide)]
  by_cases h6 : bar = 6
  · simp [h6]
  · cases hio : data.getLsbD 0 <;> simp [h6]

/-- The range a BAR's register calls for. -/
def called (bar : Fin 7) (data mask : BitVec 32) : Option PciRange :=
  if Assigned data mask then rangeOf bar data mask else none

theorem called_of_probe {bar : Fin 7} {data mask : BitVec 32} (h : Probe data mask) :
    called bar data mask = none :=
  if_neg fun ha => ha.2 h.2

namespace PciState

/-- A BAR's register. -/
def bar (s : PciState) (func : Fin 8) (bar : Fin 7) : BitVec 32 :=
  (s.configData func).load (barOffset bar) .long

def barMask (s : PciState) (func : Fin 8) (bar : Fin 7) : BitVec 32 :=
  (s.configMask func).load (barOffset bar) .long

/-- The range a function's BAR calls for. -/
def calls (s : PciState) (func : Fin 8) (bar : Fin 7) : Option PciRange :=
  called bar (s.bar func bar) (s.barMask func bar)

/-- The register holds the size probe. -/
def Probed (s : PciState) (func : Fin 8) (bar : Fin 7) : Prop :=
  Probe (s.bar func bar) (s.barMask func bar)

instance (s : PciState) (func : Fin 8) (bar : Fin 7) : Decidable (s.Probed func bar) :=
  inferInstanceAs (Decidable (Probe _ _))

variable {s : PciState} {func : Fin 8} {b : Fin 7} {data : BitVec 32}

theorem merge_and_mask : s.merge func (barOffset b) .long data &&& s.barMask func b =
    data &&& s.barMask func b := by
  refine BitVec.eq_of_getLsbD_eq fun i hi => ?_
  simp only [merge, barMask, BitVec.getLsbD_and, BitVec.getLsbD_or, BitVec.getLsbD_not]
  cases ((s.configMask func).load (barOffset b) .long).getLsbD i <;> simp

theorem bar_write : (s.write func (barOffset b) .long data).bar func b =
    s.merge func (barOffset b) .long data := by
  simp only [bar, write, Function.update_self, ConfigBytes.load_store_long]

/-- A register written with what it holds. -/
theorem write_bar : s.write func (barOffset b) .long (s.bar func b) = s := by
  have hm : s.merge func (barOffset b) .long (s.bar func b) = s.bar func b := by
    refine BitVec.eq_of_getLsbD_eq fun i hi => ?_
    simp only [merge, bar, BitVec.getLsbD_and, BitVec.getLsbD_or, BitVec.getLsbD_not, hi,
      decide_true, Bool.true_and]
    cases ((s.configMask func).load (barOffset b) .long).getLsbD i <;> simp
  simp only [write, hm]
  rw [bar, ConfigBytes.store_load_long, Function.update_eq_self]

end PciState

/-- The BARs a function has. -/
def PciCard.hasBar (card : PciCard) (func : Fin 8) (bar : Fin 7) : Bool :=
  card.deviceAt func && (!card.bridgeHeader func || bar.val < 2)

namespace PciDevice

variable {card : PciCard} {d : PciDevice} {func f : Fin 8} {bar b : Fin 7}

/-- What is registered for a BAR. -/
def registered (card : PciCard) (d : PciDevice) (func : Fin 8) (bar : Fin 7) : Option PciRange :=
  Lib.Keyed.find (d.reg.onBus card.bridge) (card.component, rangeId func bar)

theorem rangeId_inj : rangeId func bar = rangeId f b ↔ func = f ∧ bar = b := by
  have h1 := bar.isLt
  have h2 := b.isLt
  rw [rangeId, rangeId, Fin.ext_iff, Fin.ext_iff]
  omega

theorem find_mapRange (id : Nat) (range : PciRange) (key : RangeKey) :
    Lib.Keyed.find ((d.mapRange card id range).reg.onBus card.bridge) key =
      if (card.component, id) = key then some range
      else Lib.Keyed.find (d.reg.onBus card.bridge) key := by
  rw [← Lib.Keyed.find_put]
  unfold mapRange
  cases card.bridge with
  | none => rfl
  | some bridge => simp [Registry.onBus, Registry.mapChildRange]

theorem registered_mapRange (range : PciRange) :
    registered card (d.mapRange card (rangeId func bar) range) f b =
      if func = f ∧ bar = b then some range else registered card d f b := by
  rw [registered, find_mapRange, registered]
  simp only [Prod.mk.injEq, true_and, rangeId_inj]

@[simp] theorem pci_mapRange (id : Nat) (range : PciRange) :
    (d.mapRange card id range).pci = d.pci :=
  rfl

/-- `register_bar` replaces the BAR's range, or leaves it when a ROM is disabled. -/
theorem registerBar_spec (data mask : BitVec 32) :
    (d.registerBar card func bar data mask).pci = d.pci ∧
      registered card (d.registerBar card func bar data mask) f b =
        if func = f ∧ bar = b then (rangeOf bar data mask).or (registered card d f b)
        else registered card d f b := by
  have hset (io : Bool) : registered card (d.setRangeIsIo func bar io) f b =
      registered card d f b := rfl
  by_cases h6 : bar = 6
  · by_cases he : data &&& PCI_ROM_ADDRESS_ENABLE = 0
    · simp only [registerBar, rangeOf_eq, h6, he, ne_eq, not_true_eq_false, and_false, if_false,
        if_true, Option.none_or, ite_self]
      exact ⟨rfl, rfl⟩
    · simp only [registerBar, rangeOf_eq, h6, he, ne_eq, not_true_eq_false, and_false, if_false,
        if_true, Option.some_or]
      refine ⟨rfl, ?_⟩
      rw [registered_mapRange]
      rfl
  · by_cases hio : data &&& 1 = 0
    · simp only [registerBar, rangeOf_eq, h6, hio, ne_eq, not_true_eq_false, false_and, if_false,
        Option.some_or]
      refine ⟨rfl, ?_⟩
      rw [registered_mapRange, hset]
    · simp only [registerBar, rangeOf_eq, h6, hio, ne_eq, not_false_eq_true, and_self, if_false,
        if_true, Option.some_or]
      refine ⟨rfl, ?_⟩
      rw [registered_mapRange, hset]

theorem barAt_barOffset : barAt (barOffset bar) = some bar := by
  revert bar
  decide

theorem barOffset_of_barAt {address : Nat} (h : barAt address = some bar) :
    barOffset bar = address := by
  simpa using List.find?_some h

theorem barOffset_le : barOffset bar ≤ 0x30 := by
  revert bar
  decide

theorem barOffset_gt : barOffset bar > 0x14 ↔ ¬bar.val < 2 := by
  revert bar
  decide

theorem barOffset_inj (h : barOffset bar = barOffset b) : bar = b := by
  have : barAt (barOffset bar) = some bar := barAt_barOffset
  rw [h, barAt_barOffset] at this
  exact (Option.some.inj this).symm

theorem configInRange_barOffset : configInRange (barOffset bar) .long = true := by
  have : barOffset bar ≤ 0x30 := barOffset_le
  simp [configInRange, PciSize.bytes]
  omega

/-- The registers after a write, whatever it registers. -/
theorem pci_configWrite (address : Nat) (size : PciSize) (data : BitVec 32) :
    (d.configWrite card func address size data).pci =
      if configInRange address size then d.pci.write func address size data else d.pci := by
  unfold configWrite
  split
  · simp only
    split
    · split
      · exact (registerBar_spec (f := func) (b := 0) _ _).1
      · rfl
    · rfl
  · rfl

/-- A write of a BAR's whole register registers what the register then calls for. -/
theorem registered_configWrite_bar (hb : card.deviceAt func = true) (data : BitVec 32) :
    registered card (d.configWrite card func (barOffset bar) .long data) f b =
      if (func = f ∧ bar = b) ∧ card.hasBar func bar = true then
        ((d.pci.write func (barOffset bar) .long data).calls func bar).or (registered card d f b)
      else registered card d f b := by
  have hbar : (d.pci.write func (barOffset bar) .long data).calls func bar =
      called bar (d.pci.merge func (barOffset bar) .long data) (d.pci.barMask func bar) := by
    rw [PciState.calls, PciState.bar_write]
    rfl
  have has : Assigned (d.pci.merge func (barOffset bar) .long data) (d.pci.barMask func bar) ↔
      data &&& d.pci.barMask func bar ≠ d.pci.barMask func bar ∧
        data &&& d.pci.barMask func bar ≠ 0 := by
    rw [Assigned, PciState.merge_and_mask, and_comm]
  have hhas : card.hasBar func bar = true ↔
      ¬(card.bridgeHeader func = true ∧ barOffset bar > 0x14) := by
    rw [barOffset_gt]
    cases hh : card.bridgeHeader func <;> simp [PciCard.hasBar, hb, hh]
  unfold configWrite
  simp only [configInRange_barOffset, if_true, true_and, barAt_barOffset]
  rw [hbar, called]
  by_cases ha : Assigned (d.pci.merge func (barOffset bar) .long data) (d.pci.barMask func bar)
  · obtain ⟨h1, h2⟩ := has.mp ha
    rw [if_pos ha]
    by_cases hc : card.hasBar func bar = true
    · rw [if_pos ⟨h1, h2, hhas.mp hc⟩, (registerBar_spec _ _).2]
      simp only [hc, and_true]
      rfl
    · rw [if_neg fun h => hc (hhas.mpr h.2.2), if_neg fun h => hc h.2]
      rfl
  · rw [if_neg fun h => ha (has.mpr ⟨h.1, h.2.1⟩), if_neg ha]
    simp only [Option.none_or, ite_self]
    rfl

/-- Any other write registers nothing. -/
theorem registered_configWrite_other {address : Nat} {size : PciSize}
    (h : size = .long → ∀ b, card.hasBar func b = true → address ≠ barOffset b)
    (hb : card.deviceAt func = true) (data : BitVec 32) :
    registered card (d.configWrite card func address size data) f b = registered card d f b := by
  unfold configWrite
  split
  · simp only
    split
    · rename_i hc
      split
      · rename_i bar' hat
        have hoff := barOffset_of_barAt hat
        refine absurd hoff.symm (h hc.1 bar' ?_)
        have hn := hc.2.2.2
        rw [← hoff, barOffset_gt] at hn
        cases hh : card.bridgeHeader func <;> simp_all [PciCard.hasBar]
      · rfl
    · rfl
  · rfl

/-! ## Reset and restore -/

/-- A turn on a BAR that registers what its register calls for, and changes nothing else. -/
def Refreshes (card : PciCard) (func : Fin 8) (turn : PciDevice → Fin 7 → PciDevice) : Prop :=
  ∀ d bar, (turn d bar).pci = d.pci ∧ ∀ f b, registered card (turn d bar) f b =
    if (func = f ∧ bar = b) ∧ card.hasBar func bar = true then
      (d.pci.calls func bar).or (registered card d f b)
    else registered card d f b

theorem or_or_self {α : Type*} (o o' : Option α) : o.or (o.or o') = o.or o' := by
  cases o <;> rfl

theorem Refreshes.foldl {turn : PciDevice → Fin 7 → PciDevice} (h : Refreshes card func turn)
    (d : PciDevice) (l : List (Fin 7)) :
    (l.foldl turn d).pci = d.pci ∧ ∀ f b, registered card (l.foldl turn d) f b =
      if (func = f ∧ b ∈ l) ∧ card.hasBar func b = true then
        (d.pci.calls func b).or (registered card d f b)
      else registered card d f b := by
  induction l generalizing d with
  | nil => simp
  | cons bar l ih =>
    obtain ⟨hp, hr⟩ := h d bar
    obtain ⟨hp', hr'⟩ := ih (turn d bar)
    refine ⟨hp'.trans hp, fun f b => ?_⟩
    rw [List.foldl_cons, hr', hr, hp]
    by_cases hf : func = f
    · by_cases hb : bar = b
      · subst hb
        by_cases hl : bar ∈ l <;> by_cases hc : card.hasBar func bar = true <;>
          simp [hf, hl, hf ▸ hc, or_or_self]
      · have hm : b ∈ bar :: l ↔ b ∈ l := by simp [Ne.symm hb]
        simp only [hb, and_false, false_and, if_false, hm]
    · simp [hf]

theorem refreshes_write (hd : card.deviceAt func = true) : Refreshes card func fun d bar =>
    d.configWrite card func (barOffset bar) .long
      ((d.pci.configData func).load (barOffset bar) .long) := by
  intro d bar
  have hw : d.pci.write func (barOffset bar) .long
      ((d.pci.configData func).load (barOffset bar) .long) = d.pci := PciState.write_bar
  refine ⟨?_, fun f b => ?_⟩
  · rw [pci_configWrite, if_pos configInRange_barOffset, hw]
  · rw [registered_configWrite_bar hd, hw]

theorem refreshes_restoreBar (hd : card.deviceAt func = true) :
    Refreshes card func fun d bar => d.restoreBar card func bar := by
  intro d bar
  have hhas : card.hasBar func bar = true ↔
      ¬(card.bridgeHeader func = true ∧ barOffset bar > 0x14) := by
    rw [barOffset_gt]
    cases hh : card.bridgeHeader func <;> simp [PciCard.hasBar, hd, hh]
  simp only [restoreBar]
  split
  · rename_i hskip
    have hc : d.pci.calls func bar = none := by
      refine if_neg fun ha => ?_
      rcases hskip with h0 | h1 | h2
      · refine ha.1 ?_
        show _ &&& (d.pci.configMask func).load (barOffset bar) .long = 0
        rw [h0]
        exact BitVec.and_zero
      · exact ha.2 h1
      · exact ha.1 h2
    simp [hc]
  · rename_i hskip
    split
    · rename_i hb
      refine ⟨rfl, fun f b => ?_⟩
      rw [if_neg fun h => hhas.mp h.2 hb]
    · rename_i hb
      have hc : d.pci.calls func bar = rangeOf bar (d.pci.bar func bar) (d.pci.barMask func bar) :=
        if_pos ⟨fun h => hskip (Or.inr (Or.inr h)), fun h => hskip (Or.inr (Or.inl h))⟩
      refine ⟨(registerBar_spec (f := func) (b := bar) _ _).1, fun f b => ?_⟩
      rw [(registerBar_spec _ _).2, hc]
      simp only [hhas.mpr hb, and_true]
      rfl

theorem mem_resetBars (h : card.hasBar func b = true) : b ∈ resetBars card func := by
  have hall : ∀ b : Fin 7, b ∈ ([0, 1, 2, 3, 4, 5, 6] : List (Fin 7)) := by decide
  have htwo : ∀ b : Fin 7, b.val < 2 → b ∈ ([0, 1] : List (Fin 7)) := by decide
  unfold resetBars
  cases hh : card.bridgeHeader func with
  | true =>
    simp only [PciCard.hasBar, hh, Bool.not_true, Bool.false_or, Bool.and_eq_true,
      decide_eq_true_eq] at h
    exact htwo b h.2
  | false => exact hall b

/-- The registers as `ResetPCI` leaves those of the functions there are. -/
def stdState (card : PciCard) : PciState := ⟨card.stdConfigData, card.stdConfigMask⟩

/-- The registers after `ResetPCI` has come to the functions of `l`. -/
def resetOf (card : PciCard) (l : List (Fin 8)) (s : PciState) : PciState where
  configData f := if f ∈ l ∧ card.deviceAt f = true then card.stdConfigData f else s.configData f
  configMask f := if f ∈ l ∧ card.deviceAt f = true then card.stdConfigMask f else s.configMask f

theorem resetFunction_spec (hd : card.deviceAt func = true) :
    (d.resetFunction card func).pci = resetOf card [func] d.pci ∧
      ∀ f b, registered card (d.resetFunction card func) f b =
        if func = f ∧ card.hasBar func b = true then
          ((stdState card).calls func b).or (registered card d f b)
        else registered card d f b := by
  obtain ⟨hp, hr⟩ := (refreshes_write hd).foldl
    { d with pci :=
      { configData := Function.update d.pci.configData func (card.stdConfigData func)
        configMask := Function.update d.pci.configMask func (card.stdConfigMask func) } }
    (resetBars card func)
  refine ⟨hp.trans ?_, fun f b => (hr f b).trans ?_⟩
  · show PciState.mk _ _ = PciState.mk _ _
    congr 1
    all_goals
      funext f
      by_cases hf : f = func
      · subst hf
        simp [hd]
      · simp [hf]
  · have hcalls : PciState.calls
        { configData := Function.update d.pci.configData func (card.stdConfigData func)
          configMask := Function.update d.pci.configMask func (card.stdConfigMask func) } func b =
        (stdState card).calls func b := by
      simp [PciState.calls, PciState.bar, PciState.barMask, stdState]
    rw [hcalls]
    by_cases hb : card.hasBar func b = true
    · simp only [hb, mem_resetBars hb, and_true]
      rfl
    · rw [if_neg fun h => hb h.2, if_neg fun h => hb h.2]
      rfl

theorem resetOf_cons (card : PciCard) (func : Fin 8) (l : List (Fin 8)) (s : PciState) :
    resetOf card l (resetOf card [func] s) = resetOf card (func :: l) s := by
  simp only [resetOf]
  congr 1
  all_goals
    funext f
    by_cases hf : f = func
    · by_cases hd : card.deviceAt f = true <;> simp [hf, hf ▸ hd]
    · simp [hf]

theorem resetOf_of_absent (hd : card.deviceAt func = false) (l : List (Fin 8)) (s : PciState) :
    resetOf card (func :: l) s = resetOf card l s := by
  simp only [resetOf]
  congr 1
  all_goals
    funext f
    by_cases hf : f = func
    · subst hf
      simp [hd]
    · simp [hf]

theorem reset_foldl (l : List (Fin 8)) (d : PciDevice) :
    (l.foldl (fun d func => if card.deviceAt func then d.resetFunction card func else d) d).pci =
        resetOf card l d.pci ∧
      ∀ f b, registered card
        (l.foldl (fun d func => if card.deviceAt func then d.resetFunction card func else d) d) f b =
        if f ∈ l ∧ card.hasBar f b = true then
          ((stdState card).calls f b).or (registered card d f b)
        else registered card d f b := by
  induction l generalizing d with
  | nil => simp [resetOf]
  | cons func l ih =>
    rw [List.foldl_cons]
    cases hd : card.deviceAt func with
    | false =>
      obtain ⟨hp, hr⟩ := ih d
      simp only [Bool.false_eq_true, if_false]
      refine ⟨hp.trans (resetOf_of_absent hd l d.pci).symm, fun f b => (hr f b).trans ?_⟩
      by_cases hf : f = func
      · subst hf
        simp [PciCard.hasBar, hd]
      · simp [hf]
    | true =>
      obtain ⟨hp, hr⟩ := ih (d.resetFunction card func)
      obtain ⟨hp', hr'⟩ := resetFunction_spec (d := d) hd
      simp only [if_true]
      refine ⟨by rw [hp, hp', resetOf_cons], fun f b => ?_⟩
      rw [hr, hr']
      by_cases hf : f = func
      · subst hf
        by_cases hl : f ∈ l <;> by_cases hb : card.hasBar f b = true <;>
          simp [hl, hb, or_or_self]
      · simp [hf, Ne.symm hf]

theorem mapConfigSpace_spec (secondary : Nat) :
    (d.mapConfigSpace card secondary).pci = d.pci ∧
      ∀ f b, registered card (d.mapConfigSpace card secondary) f b = registered card d f b := by
  unfold mapConfigSpace
  generalize List.finRange 8 = l
  induction l generalizing d with
  | nil => exact ⟨rfl, fun _ _ => rfl⟩
  | cons func l ih =>
    rw [List.foldl_cons]
    refine ⟨ih.1.trans ?_, fun f b => (ih.2 f b).trans ?_⟩
    · split <;> rfl
    · split
      · unfold registered Registry.onBus
        cases card.bridge with
        | some bridge => rfl
        | none =>
          have hne : configId func ≠ rangeId f b := by
            have := b.isLt
            unfold configId rangeId
            omega
          simp only [Registry.registerMemory, Lib.Keyed.find_put, Prod.mk.injEq, hne, and_false,
            if_false]
      · rfl

theorem resetPCI_spec (secondary : Nat) :
    (d.resetPCI card secondary).pci = resetOf card (List.finRange 8) d.pci ∧
      ∀ f b, registered card (d.resetPCI card secondary) f b =
        if card.hasBar f b = true then ((stdState card).calls f b).or (registered card d f b)
        else registered card d f b := by
  obtain ⟨hp, hr⟩ : (d.mapConfigSpace card secondary).pci = d.pci ∧
      ∀ f b, registered card (d.mapConfigSpace card secondary) f b = registered card d f b :=
    mapConfigSpace_spec secondary
  obtain ⟨hp', hr'⟩ := @reset_foldl card (List.finRange 8) (d.mapConfigSpace card secondary)
  refine ⟨hp'.trans (by rw [hp]), fun f b => (hr' f b).trans ?_⟩
  simp only [List.mem_finRange, true_and, hr]

theorem restore_foldl (l : List (Fin 8)) (d : PciDevice) :
    (l.foldl (fun d func => if card.deviceAt func then
        (List.finRange 7).foldl (fun d bar => d.restoreBar card func bar) d else d) d).pci = d.pci ∧
      ∀ f b, registered card (l.foldl (fun d func => if card.deviceAt func then
        (List.finRange 7).foldl (fun d bar => d.restoreBar card func bar) d else d) d) f b =
        if f ∈ l ∧ card.hasBar f b = true then (d.pci.calls f b).or (registered card d f b)
        else registered card d f b := by
  induction l generalizing d with
  | nil => simp
  | cons func l ih =>
    rw [List.foldl_cons]
    cases hd : card.deviceAt func with
    | false =>
      obtain ⟨hp, hr⟩ := ih d
      simp only [Bool.false_eq_true, if_false]
      refine ⟨hp, fun f b => (hr f b).trans ?_⟩
      by_cases hf : f = func
      · subst hf
        simp [PciCard.hasBar, hd]
      · simp [hf]
    | true =>
      obtain ⟨hp', hr'⟩ := (refreshes_restoreBar hd).foldl d (List.finRange 7)
      obtain ⟨hp, hr⟩ := ih ((List.finRange 7).foldl (fun d bar => d.restoreBar card func bar) d)
      simp only [if_true]
      refine ⟨hp.trans hp', fun f b => (hr f b).trans ?_⟩
      rw [hr', hp']
      by_cases hf : f = func
      · subst hf
        by_cases hl : f ∈ l <;> by_cases hb : card.hasBar f b = true <;>
          simp [hl, hb, or_or_self]
      · simp [hf, Ne.symm hf]

theorem restoreState_spec (image : PciState) :
    (d.restoreState card image).pci = image ∧
      ∀ f b, registered card (d.restoreState card image) f b =
        if card.hasBar f b = true then (image.calls f b).or (registered card d f b)
        else registered card d f b := by
  obtain ⟨hp, hr⟩ := @restore_foldl card (List.finRange 8) { d with pci := image }
  refine ⟨hp, fun f b => (hr f b).trans ?_⟩
  simp only [List.mem_finRange, true_and]
  rfl

end PciDevice

/-! ## Runs -/

/-- What happens to a device. -/
inductive PciOp where
  | write (func : Fin 8) (address : Nat) (size : PciSize) (data : BitVec 32)
  | reset (secondary : Nat)
  | restore (image : PciState)

/-- A device, and the range each BAR last called for. -/
structure PciHistory where
  dev : PciDevice
  last : Fin 8 → Fin 7 → Option PciRange

namespace PciHistory

variable (card : PciCard) (h : PciHistory)

/-- The device after an operation: configuration cycles reach the functions there are. -/
def devStep : PciOp → PciDevice
  | .write func address size data =>
    if card.deviceAt func then h.dev.configWrite card func address size data else h.dev
  | .reset secondary => h.dev.resetPCI card secondary
  | .restore image => h.dev.restoreState card image

def step (op : PciOp) : PciHistory where
  dev := h.devStep card op
  last f b := ((h.devStep card op).pci.calls f b).or (h.last f b)

/-- Before the first operation: no registers, and nothing registered for the device's BARs. -/
structure Init : Prop where
  data : ∀ f a, h.dev.pci.configData f a = 0
  mask : ∀ f a, h.dev.pci.configMask f a = 0
  registered : ∀ f b, h.dev.registered card f b = none
  last : ∀ f b, h.last f b = none

def Reachable (ok : PciHistory → PciOp → Prop) : PciHistory → Prop :=
  Lib.Reach (Init card) ok (step card)

/-- The registrations say what the registers say: a BAR has the range its register calls for and no
other, but for the one left from its last address while the register holds the size probe. -/
structure Decodes : Prop where
  called : ∀ f b, card.hasBar f b = true → ¬h.dev.pci.Probed f b →
    h.dev.registered card f b = h.dev.pci.calls f b
  probe : ∀ f b, card.hasBar f b = true → h.dev.pci.Probed f b →
    h.dev.registered card f b = none ∨ h.dev.registered card f b = h.last f b
  absent : ∀ f b, card.hasBar f b = false → h.dev.registered card f b = none

/-- The registers an operation leaves. -/
def after : PciOp → PciState
  | .write func address size data =>
    if card.deviceAt func ∧ configInRange address size then
      h.dev.pci.write func address size data
    else h.dev.pci
  | .reset _ => PciDevice.resetOf card (List.finRange 8) h.dev.pci
  | .restore image => image

/-- The BARs an operation looks at. -/
def Registers (f : Fin 8) (b : Fin 7) : PciOp → Prop
  | .write func address size _ => func = f ∧ size = .long ∧ address = barOffset b
  | .reset _ => True
  | .restore _ => True

/-- The operation takes no address away from a BAR that has a range, and gives one to a BAR only
where it registers it: a register it leaves with an address it does not register, or with none,
calls for what is registered already. -/
def Safe (op : PciOp) : Prop :=
  ∀ f b, card.hasBar f b = true → ¬(h.after card op).Probed f b →
    (Registers f b op ∧ (h.after card op).calls f b ≠ none) ∨
      h.dev.registered card f b = (h.after card op).calls f b

variable {card h}

open PciDevice

theorem pci_step (op : PciOp) : (h.step card op).dev.pci = h.after card op := by
  cases op with
  | write func address size data =>
    simp only [step, devStep, after]
    cases hd : card.deviceAt func with
    | false => simp
    | true => simp [pci_configWrite]
  | reset secondary => exact (resetPCI_spec secondary).1
  | restore image => exact (restoreState_spec image).1

instance (f : Fin 8) (b : Fin 7) : (op : PciOp) → Decidable (Registers f b op)
  | .write _ _ _ _ => inferInstanceAs (Decidable (_ ∧ _))
  | .reset _ => .isTrue trivial
  | .restore _ => .isTrue trivial

theorem calls_resetOf {f : Fin 8} {b : Fin 7} (hb : card.hasBar f b = true) (s : PciState) :
    (resetOf card (List.finRange 8) s).calls f b = (stdState card).calls f b := by
  have hd : card.deviceAt f = true := by
    simp only [PciCard.hasBar, Bool.and_eq_true] at hb
    exact hb.1
  simp [PciState.calls, PciState.bar, PciState.barMask, resetOf, stdState, hd]

/-- An operation registers what the BARs it looks at call for, and withdraws nothing. -/
theorem registered_step (op : PciOp) (f : Fin 8) (b : Fin 7) :
    (h.step card op).dev.registered card f b =
      if card.hasBar f b = true ∧ Registers f b op then
        ((h.after card op).calls f b).or (h.dev.registered card f b)
      else h.dev.registered card f b := by
  cases op with
  | write func address size data =>
    show PciDevice.registered card (h.devStep card _) f b = _
    simp only [devStep, after, Registers]
    cases hd : card.deviceAt func with
    | false =>
      have hne : ¬(card.hasBar f b = true ∧ func = f ∧ size = .long ∧ address = barOffset b) := by
        rintro ⟨hb, rfl, -⟩
        simp [PciCard.hasBar, hd] at hb
      simp only [Bool.false_eq_true, if_false, if_neg hne]
    | true =>
      simp only [if_true, true_and]
      by_cases hbar : size = .long ∧ ∃ bar, card.hasBar func bar = true ∧ address = barOffset bar
      · obtain ⟨rfl, bar, hbar, rfl⟩ := hbar
        rw [registered_configWrite_bar hd, if_pos configInRange_barOffset]
        by_cases heq : func = f ∧ bar = b
        · obtain ⟨rfl, rfl⟩ := heq
          simp [hbar]
        · rw [if_neg fun h => heq h.1, if_neg]
          rintro ⟨-, hf, -, ho⟩
          exact heq ⟨hf, barOffset_inj ho⟩
      · rw [registered_configWrite_other (fun hs b hb ha => hbar ⟨hs, b, hb, ha⟩) hd, if_neg]
        rintro ⟨hb, rfl, hs, ha⟩
        exact hbar ⟨hs, b, hb, ha⟩
  | reset secondary =>
    refine ((resetPCI_spec secondary).2 f b).trans ?_
    by_cases hb : card.hasBar f b = true
    · simp only [hb, if_true, Registers, and_self, after, calls_resetOf hb]
    · rw [if_neg hb, if_neg fun h => hb h.1]
  | restore image =>
    refine ((restoreState_spec image).2 f b).trans ?_
    by_cases hb : card.hasBar f b = true
    · simp only [hb, if_true, Registers, and_self, after]
    · rw [if_neg hb, if_neg fun h => hb h.1]

/-- The last range called for is the one called for now, while there is one. -/
def LastCalled (h : PciHistory) : Prop :=
  ∀ f b, h.dev.pci.calls f b ≠ none → h.last f b = h.dev.pci.calls f b

theorem lastCalled_step (op : PciOp) : LastCalled (h.step card op) := by
  intro f b hc
  obtain ⟨r, hr⟩ := Option.ne_none_iff_exists'.mp hc
  show ((h.devStep card op).pci.calls f b).or (h.last f b) = _
  rw [show (h.devStep card op).pci.calls f b = some r from hr, hr]
  rfl

/-- The probed BARs keep what they had. -/
theorem probe_step (hd : Decodes card h) (hl : LastCalled h) (op : PciOp) {f : Fin 8} {b : Fin 7}
    (hb : card.hasBar f b = true) (hp : (h.after card op).Probed f b) :
    (h.step card op).dev.registered card f b = none ∨
      (h.step card op).dev.registered card f b = (h.step card op).last f b := by
  have hc : (h.after card op).calls f b = none := called_of_probe hp
  have hreg : (h.step card op).dev.registered card f b = h.dev.registered card f b := by
    rw [registered_step, hc]
    simp
  have hlast : (h.step card op).last f b = h.last f b := by
    show ((h.step card op).dev.pci.calls f b).or (h.last f b) = _
    rw [pci_step, hc]
    rfl
  rw [hreg, hlast]
  by_cases hq : h.dev.pci.Probed f b
  · exact hd.probe f b hb hq
  · rw [hd.called f b hb hq]
    by_cases hn : h.dev.pci.calls f b = none
    · exact Or.inl hn
    · exact Or.inr (hl f b hn).symm

theorem decodes_step (hd : Decodes card h) (hl : LastCalled h) (op : PciOp) :
    Decodes card (h.step card op) ↔ h.Safe card op := by
  constructor
  · intro hd' f b hb hp
    have hc := hd'.called f b hb (by rwa [pci_step])
    rw [pci_step, registered_step] at hc
    by_cases hr : Registers f b op
    · by_cases hn : (h.after card op).calls f b = none
      · rw [if_pos ⟨hb, hr⟩, hn, Option.none_or] at hc
        exact Or.inr (hc.trans hn.symm)
      · exact Or.inl ⟨hr, hn⟩
    · rw [if_neg fun h => hr h.2] at hc
      exact Or.inr hc
  · intro hs
    refine ⟨fun f b hb hp => ?_, fun f b hb hp => ?_, fun f b hb => ?_⟩
    · rw [pci_step] at hp ⊢
      rw [registered_step]
      rcases hs f b hb hp with ⟨hr, hn⟩ | hc
      · obtain ⟨r, hr'⟩ := Option.ne_none_iff_exists'.mp hn
        rw [if_pos ⟨hb, hr⟩, hr']
        rfl
      · rw [hc]
        split
        · cases (h.after card op).calls f b <;> rfl
        · rfl
    · rw [pci_step] at hp
      exact probe_step hd hl op hb hp
    · rw [registered_step, if_neg fun h => by rw [hb] at h; exact Bool.noConfusion h.1]
      exact hd.absent f b hb

theorem decodes_init (hi : Init card h) : Decodes card h ∧ LastCalled h := by
  have hm (f : Fin 8) (b : Fin 7) : h.dev.pci.barMask f b = 0 := by
    simp only [PciState.barMask, ConfigBytes.load, hi.mask]
    rfl
  have hc (f : Fin 8) (b : Fin 7) : h.dev.pci.calls f b = none := by
    refine if_neg fun ha => ha.1 ?_
    rw [hm]
    exact BitVec.and_zero
  refine ⟨⟨fun f b _ _ => ?_, fun f b _ _ => Or.inl (hi.registered f b), fun f b _ =>
    hi.registered f b⟩, fun f b hn => absurd (hc f b) hn⟩
  rw [hi.registered, hc]

/-- In every run of safe operations a device decodes where its registers say, and after such a run
the next operation keeps it so exactly when it is safe. -/
theorem pci_decodes_registers (hr : Reachable card (fun h op => h.Safe card op) h) :
    Decodes card h ∧ ∀ op, Decodes card (h.step card op) ↔ h.Safe card op := by
  have hinv : Decodes card h ∧ LastCalled h := by
    refine Lib.Reach.inv (P := fun h => Decodes card h ∧ LastCalled h) (fun h hi => decodes_init hi)
      (fun h op hi hs => ?_) hr
    exact ⟨(decodes_step hi.1 hi.2 op).mpr hs, lastCalled_step op⟩
  exact ⟨hinv.1, decodes_step hinv.1 hinv.2⟩

/-- A card of one function with a memory BAR of 4 KB and a ROM of 64 KB. -/
def ramCard : PciCard where
  component := 1
  slot := 1
  bridge := none
  deviceAt f := f = 0
  stdConfigData _ _ := 0
  stdConfigMask _ :=
    (ConfigBytes.store (fun _ => 0) 0x10 .long 0xfffff000).store 0x30 .long 0xffff0001

def blank : PciHistory := ⟨⟨⟨fun _ _ => 0, fun _ _ => 0⟩, fun _ _ => false, ⟨[], fun _ => []⟩⟩,
  fun _ _ => none⟩

theorem init_blank : Init ramCard blank :=
  ⟨fun _ _ => rfl, fun _ _ => rfl, fun _ _ => rfl, fun _ _ => rfl⟩

/-- The BAR is sized and given an address. -/
def assignBar : List PciOp :=
  [.reset 0, .write 0 0x10 .long 0xffffffff, .write 0 0x10 .long 0x10000000]

theorem pci_decodes_registers_assigned :
    Decodes ramCard (assignBar.foldl (step ramCard) blank) ∧
      (assignBar.foldl (step ramCard) blank).dev.registered ramCard 0 0 =
        some ⟨.mem, 0x10000000, 0x1000⟩ := by
  have h0 : Reachable ramCard (fun h op => h.Safe ramCard op) blank := .start init_blank
  have h1 := h0.next (show Safe ramCard _ (.reset 0) from by unfold Safe; decide +kernel)
  have h2 := h1.next (show Safe ramCard _ (.write 0 0x10 .long 0xffffffff) from by
    unfold Safe; decide +kernel)
  have h3 := h2.next (show Safe ramCard _ (.write 0 0x10 .long 0x10000000) from by
    unfold Safe; decide +kernel)
  exact ⟨(pci_decodes_registers h3).1, by decide +kernel⟩

/-- The address is moved by a 16-bit write, zeroed, or lost in a reset; an enabled ROM is disabled. -/
def strayRuns : List (List PciOp) :=
  [assignBar ++ [.write 0 0x12 .word 0x2000],
    assignBar ++ [.write 0 0x10 .long 0],
    assignBar ++ [.reset 0],
    [.reset 0, .write 0 0x30 .long 0x20000001, .write 0 0x30 .long 0x20000000]]

/-- In each of them a BAR's range stays where it was. -/
theorem strayRuns_stray : ∀ ops ∈ strayRuns, ¬Decodes ramCard (ops.foldl (step ramCard) blank) := by
  intro ops hops hd
  have hstray : ∀ ops ∈ strayRuns, ∃ b, ramCard.hasBar 0 b = true ∧
      ¬(ops.foldl (step ramCard) blank).dev.pci.Probed 0 b ∧
      (ops.foldl (step ramCard) blank).dev.registered ramCard 0 b ≠
        (ops.foldl (step ramCard) blank).dev.pci.calls 0 b := by
    decide +kernel
  obtain ⟨b, hb, hp, hne⟩ := hstray ops hops
  exact hne (hd.called 0 b hb hp)

/-- Each of the runs leaves a range that no register calls for. -/
theorem pci_leaves_ranges : strayRuns ≠ [] ∧ List.Forall (fun ops =>
    Reachable ramCard (fun _ _ => True) (ops.foldl (step ramCard) blank) ∧
      ¬Decodes ramCard (ops.foldl (step ramCard) blank)) strayRuns := by
  refine ⟨by simp [strayRuns], List.forall_iff_forall_mem.mpr fun ops hops => ?_⟩
  have h0 : Reachable ramCard (fun _ _ => True) blank := .start init_blank
  exact ⟨h0.foldl ops fun _ _ _ => trivial, strayRuns_stray ops hops⟩

end PciHistory

end Alphabox.Pci
