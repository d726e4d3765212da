import Alphabox.Pci.IspDriver

/-!
# The ISP10x0's queues lose nothing the driver makes room for

The queues are followed by counts that never wrap: `o` slots of the request queue taken, `p`
responses posted. A slice takes whole blocks (`sliceLoop_spec`): it posts one status entry for each
command among them, in order, into the slots after those already there.

The adapter never looks at `response_out`, and a mailbox command overwrites the pointers that
mailboxes 4 and 5 mirror. `IspHistory.Safe` leaves out the steps where either is seen.
-/

namespace Alphabox.Pci

open Lib.Ring (slots fill)

/-- The slots of a run of blocks. -/
def entriesOf (l : List IspBlock) : List IspEntry := l.flatMap IspBlock.entries

/-- The commands among blocks. -/
def commandsOf (l : List IspBlock) : List IspBlock := l.filter (·.head.isCommand)

theorem entriesOf_append (l m : List IspBlock) : entriesOf (l ++ m) = entriesOf l ++ entriesOf m :=
  List.flatMap_append

theorem commandsOf_append (l m : List IspBlock) :
    commandsOf (l ++ m) = commandsOf l ++ commandsOf m :=
  List.filter_append _ _

theorem entriesOf_cons (b : IspBlock) (l : List IspBlock) :
    entriesOf (b :: l) = b.entries ++ entriesOf l := by
  simp [entriesOf]

/-- A block takes a slot at least. -/
theorem entriesOf_eq_nil {l : List IspBlock} : (entriesOf l).length = 0 ↔ l = [] := by
  cases l with
  | nil => simp [entriesOf]
  | cons b l => simp [entriesOf_cons, IspBlock.entries]

namespace IspBlock.WellFormed

variable {b : IspBlock}

theorem executeEntry_eq (h : b.WellFormed) (o : IspOutcome) :
    executeEntry b.head o = if b.head.isCommand then some (statusEntry b.head o) else none := by
  unfold executeEntry
  rcases h.head with hc | hm
  · have hs : b.head.silent = false := by
      simp only [IspEntry.isCommand, Bool.or_eq_true, decide_eq_true_eq] at hc
      rcases hc with (hc | hc) | hc <;> (rw [IspEntry.silent, hc]; decide)
    simp [hs, hc]
  · have hs : b.head.silent = true := by rw [IspEntry.silent, hm]; decide
    have hc : b.head.isCommand = false := by rw [IspEntry.isCommand, hm]; decide
    simp [hs, hc]

end IspBlock.WellFormed

namespace Isp1040

variable {s s' : Isp1040}

/-- The pointers in mailboxes 4 and 5. -/
def Mirrored (s : Isp1040) : Prop := s.mailboxOut 4 = s.requestOut ∧ s.mailboxOut 5 = s.responseIn

/-- What a slice leaves alone. -/
structure SameSetup (s s' : Isp1040) : Prop where
  requests : s'.requests = s.requests
  requestIn : s'.requestIn = s.requestIn
  requestLength : s'.requestLength = s.requestLength
  responseLength : s'.responseLength = s.responseLength
  sema : s'.sema = s.sema

theorem SameSetup.refl (s : Isp1040) : SameSetup s s := ⟨rfl, rfl, rfl, rfl, rfl⟩

theorem SameSetup.trans {s'' : Isp1040} (h : SameSetup s s') (h' : SameSetup s' s'') :
    SameSetup s s'' :=
  ⟨h'.1.trans h.1, h'.2.trans h.2, h'.3.trans h.3, h'.4.trans h.4, h'.5.trans h.5⟩

/-- The response queue holds `posted` from count `p` on. -/
structure Posts (s s' : Isp1040) (p : Nat) (posted : List IspResponse) : Prop where
  responses : s'.responses = fill s.responseLength s.responses p posted
  responseIn : s'.responseIn = (p + posted.length) % s.responseLength

theorem postResponse_spec {p : Nat} (hM : s.responseLength ≠ 0)
    (hp : s.responseIn = p % s.responseLength) (r : IspResponse) :
    SameSetup s (s.postResponse r) ∧ (s.postResponse r).requestOut = s.requestOut ∧
      (s.postResponse r).Mirrored ∧ Posts s (s.postResponse r) p [r] := by
  unfold postResponse
  rw [if_neg hM]
  refine ⟨⟨rfl, rfl, rfl, rfl, rfl⟩, rfl, ⟨rfl, rfl⟩, ⟨?_, ?_⟩⟩
  · show Function.update s.responses s.responseIn r = _
    rw [hp]
    rfl
  · show (s.responseIn + 1) % s.responseLength = _
    rw [hp, Nat.mod_add_mod]
    rfl

theorem Posts.trans {s'' : Isp1040} {p : Nat} {l m : List IspResponse} (hs : SameSetup s s')
    (h : Posts s s' p l) (h' : Posts s' s'' (p + l.length) m) : Posts s s'' p (l ++ m) := by
  refine ⟨?_, ?_⟩
  · rw [h'.responses, h.responses, hs.responseLength, Lib.Ring.fill_append]
  · rw [h'.responseIn, hs.responseLength, List.length_append, Nat.add_assoc]

/-- What taking a well-formed block comes to. -/
structure Takes (s s' : Isp1040) (o p : Nat) (l : List IspBlock) (posted : List IspResponse) :
    Prop where
  setup : SameSetup s s'
  out : s'.requestOut = (o + (entriesOf l).length) % s.requestLength
  posts : Posts s s' p posted
  handles : posted.map (·.handle) = (commandsOf l).map (·.head.handle)
  mirrored : l ≠ [] ∨ s.Mirrored → s'.Mirrored

theorem takeEntry_spec {o p : Nat} {b : IspBlock} (hb : b.WellFormed)
    (hM : s.responseLength ≠ 0) (ho : s.requestOut = o % s.requestLength)
    (hp : s.responseIn = p % s.responseLength)
    (hhead : s.requests (o % s.requestLength) = b.head) (out : IspOutcome) :
    Takes s (s.takeEntry out).1 o p [b] (s.takeEntry out).2 := by
  have hout : (s.advance b.head).requestOut = (o + (entriesOf [b]).length) % s.requestLength := by
    show (s.requestOut + b.head.slots) % s.requestLength = _
    rw [ho, Nat.mod_add_mod, hb.count, entriesOf_cons]
    simp [entriesOf]
  simp only [takeEntry, ho, hhead, hb.executeEntry_eq]
  cases hc : b.head.isCommand with
  | false =>
    have hcmd : commandsOf [b] = [] := by simp [commandsOf, hc]
    exact ⟨⟨rfl, rfl, rfl, rfl, rfl⟩, hout, ⟨rfl, hp⟩, by rw [hcmd]; rfl,
      fun _ => ⟨rfl, rfl⟩⟩
  | true =>
    have hcmd : commandsOf [b] = [b] := by simp [commandsOf, hc]
    have hM1 : (s.advance b.head).responseLength ≠ 0 := hM
    have hp1 : (s.advance b.head).responseIn = p % (s.advance b.head).responseLength := hp
    obtain ⟨hsetup, hreq, hmir, hposts⟩ := postResponse_spec hM1 hp1 (statusEntry b.head out)
    exact ⟨⟨hsetup.1, hsetup.2, hsetup.3, hsetup.4, hsetup.5⟩, hreq.trans hout,
      ⟨hposts.1, hposts.2⟩, by rw [hcmd]; rfl, fun _ => hmir⟩

/-- A slice takes the blocks announced, up to its number of turns, and finds the queue empty when
they are fewer. -/
theorem sliceLoop_spec (outcomes : Nat → IspOutcome) (n : Nat) {o p : Nat} {todo : List IspBlock}
    (hM : s.responseLength ≠ 0) (ho : s.requestOut = o % s.requestLength)
    (hp : s.responseIn = p % s.responseLength) (hwf : ∀ b ∈ todo, b.WellFormed)
    (hin : s.requestIn = (o + (entriesOf todo).length) % s.requestLength)
    (hroom : (entriesOf todo).length < s.requestLength)
    (hring : slots s.requestLength s.requests o (entriesOf todo).length = entriesOf todo) :
    Takes s (sliceLoop outcomes n s).1 o p (todo.take n) (sliceLoop outcomes n s).2.1 ∧
      (sliceLoop outcomes n s).2.2 = decide (todo.length < n) := by
  induction n generalizing s o p todo with
  | zero =>
    refine ⟨⟨.refl s, ?_, ⟨rfl, hp⟩, rfl, ?_⟩, by simp [sliceLoop]⟩
    · simpa [entriesOf, sliceLoop] using ho
    · simp [sliceLoop]
  | succ n ih =>
    have hL : s.requestLength ≠ 0 := by omega
    cases todo with
    | nil =>
      have he : s.requestOut = s.requestIn := by rw [ho, hin]; simp [entriesOf]
      have hs : sliceLoop outcomes (n + 1) s = (s, [], true) := by simp [sliceLoop, he]
      rw [hs]
      refine ⟨⟨.refl s, ?_, ⟨rfl, hp⟩, rfl, ?_⟩, by simp⟩
      · simpa [entriesOf] using ho
      · simp
    | cons b todo =>
      rw [entriesOf_cons, List.length_append] at hin hroom hring
      have hb := hwf b List.mem_cons_self
      -- the first slot is the block's entry, the rest of its slots come before the next block
      rw [Lib.Ring.slots_add] at hring
      obtain ⟨hblock, hrest⟩ := List.append_inj hring (by simp)
      have hhead : s.requests (o % s.requestLength) = b.head := by
        have hlen : b.entries.length = b.rest.length + 1 := rfl
        rw [hlen, Lib.Ring.slots_succ] at hblock
        exact (List.cons.inj hblock).1
      have hne : ¬(s.requestLength = 0 ∨ s.requestOut = s.requestIn) := by
        rintro (h | h)
        · exact hL h
        · rw [ho, hin] at h
          have hpos : 0 < b.entries.length := Nat.succ_pos _
          exact Lib.Ring.add_mod_ne (r := o) (i := 0) (n := s.requestLength)
            (j := b.entries.length + (entriesOf todo).length) (by omega) (by omega) h
      have h1 := takeEntry_spec hb hM ho hp hhead (outcomes n)
      have hlen1 : (entriesOf [b]).length = b.entries.length := by simp [entriesOf]
      have hs1 := h1.setup
      obtain ⟨h2, hempty⟩ := ih (s := (s.takeEntry (outcomes n)).1) (o := o + b.entries.length)
        (p := p + (s.takeEntry (outcomes n)).2.length)
        (by rw [hs1.responseLength]; exact hM)
        (by rw [h1.out, hlen1, hs1.requestLength])
        (by rw [h1.posts.responseIn, hs1.responseLength])
        (fun b' hb' => hwf b' (List.mem_cons_of_mem _ hb'))
        (by rw [hs1.requestIn, hin, hs1.requestLength, Nat.add_assoc])
        (by rw [hs1.requestLength]; omega)
        (by rw [hs1.requestLength, hs1.requests]; exact hrest)
      have hs : sliceLoop outcomes (n + 1) s =
          ((sliceLoop outcomes n (s.takeEntry (outcomes n)).1).1,
            (s.takeEntry (outcomes n)).2 ++ (sliceLoop outcomes n (s.takeEntry (outcomes n)).1).2.1,
            (sliceLoop outcomes n (s.takeEntry (outcomes n)).1).2.2) := by
        rw [sliceLoop, if_neg hne]
      rw [hs]
      refine ⟨⟨hs1.trans h2.setup, ?_, h1.posts.trans hs1 h2.posts, ?_, fun _ => ?_⟩,
        by simpa using hempty⟩
      · rw [h2.out, hs1.requestLength, List.take_succ_cons, entriesOf_cons, List.length_append,
          Nat.add_assoc]
      · rw [List.map_append, h1.handles, h2.handles, List.take_succ_cons, ← List.map_append,
          ← commandsOf_append]
        rfl
      · exact h2.mirrored (Or.inr (h1.mirrored (Or.inl (by simp))))

/-- `run_request_queue` on the blocks announced; what it cannot finish it leaves pending. -/
theorem runRequestQueue_spec (outcomes : Nat → IspOutcome) {o p : Nat} {todo : List IspBlock}
    (hM : s.responseLength ≠ 0) (ho : s.requestOut = o % s.requestLength)
    (hp : s.responseIn = p % s.responseLength) (hwf : ∀ b ∈ todo, b.WellFormed)
    (hin : s.requestIn = (o + (entriesOf todo).length) % s.requestLength)
    (hroom : (entriesOf todo).length < s.requestLength)
    (hring : slots s.requestLength s.requests o (entriesOf todo).length = entriesOf todo) :
    Takes s (s.runRequestQueue outcomes).1 o p (todo.take ISP_QUEUE_SLICE)
        (s.runRequestQueue outcomes).2 ∧
      (ISP_QUEUE_SLICE < todo.length → (s.runRequestQueue outcomes).1.queuePending = true) := by
  obtain ⟨ht, he⟩ := sliceLoop_spec (s := { s with queuePending := false }) outcomes ISP_QUEUE_SLICE
    hM ho hp hwf hin hroom hring
  simp only [runRequestQueue, he]
  split
  · rename_i hemp
    refine ⟨⟨⟨ht.1.1, ht.1.2, ht.1.3, ht.1.4, ht.1.5⟩, ht.2, ⟨ht.3.1, ht.3.2⟩, ht.4, ht.5⟩,
      fun hlt => ?_⟩
    have := of_decide_eq_true hemp
    omega
  · refine ⟨⟨⟨ht.1.1, ht.1.2, ht.1.3, ht.1.4, ht.1.5⟩, ht.2, ⟨ht.3.1, ht.3.2⟩, ht.4, ht.5⟩,
      fun hlt => ?_⟩
    rw [decide_eq_true_eq, ht.out, ht.setup.requestIn]
    show (o + (entriesOf (todo.take ISP_QUEUE_SLICE)).length) % s.requestLength ≠ s.requestIn
    rw [hin]
    have hsplit : (entriesOf todo).length = (entriesOf (todo.take ISP_QUEUE_SLICE)).length +
        (entriesOf (todo.drop ISP_QUEUE_SLICE)).length := by
      rw [← List.length_append, ← entriesOf_append, List.take_append_drop]
    have hpos : (entriesOf (todo.drop ISP_QUEUE_SLICE)).length ≠ 0 := by
      rw [ne_eq, entriesOf_eq_nil, List.drop_eq_nil_iff]
      omega
    exact Lib.Ring.add_mod_ne (by omega) (by omega)

end Isp1040

namespace IspHistory

variable {chip : IspChip} {h : IspHistory} {i j : Nat}

/-! ## The invariant -/

/-- The request side, `i` the count the queue started at: the slots from `request_out` up to the
driver's producer index hold the blocks not yet taken. -/
structure Requests (i : Nat) (h : IspHistory) : Prop where
  length : 2 ≤ h.isp.requestLength ∧ h.isp.requestLength < 2 ^ 16
  out : h.isp.requestOut =
    (i + (entriesOf (h.blocks.take h.taken)).length) % h.isp.requestLength
  inp : h.isp.requestIn =
    (i + (entriesOf (h.blocks.take h.announced)).length) % h.isp.requestLength
  prod : h.prod = (i + (entriesOf h.blocks).length) % h.isp.requestLength
  room : (entriesOf (h.blocks.drop h.taken)).length < h.isp.requestLength
  ring : slots h.isp.requestLength h.isp.requests
    (i + (entriesOf (h.blocks.take h.taken)).length) (entriesOf (h.blocks.drop h.taken)).length =
      entriesOf (h.blocks.drop h.taken)
  order : h.taken ≤ h.announced ∧ h.announced ≤ h.blocks.length
  wellFormed : ∀ b ∈ h.blocks, b.WellFormed
  pending : h.taken < h.announced → h.isp.queuePending = true

/-- The response side, `j` the count the queue started at: the slots from the driver's consumer
index hold the responses not yet consumed. -/
structure Responses (j : Nat) (h : IspHistory) : Prop where
  length : 2 ≤ h.isp.responseLength ∧ h.isp.responseLength < 2 ^ 16
  inp : h.isp.responseIn = (j + h.posted.length) % h.isp.responseLength
  cons : h.cons = (j + h.consumed.length) % h.isp.responseLength
  seen : ∃ n, h.consumed.length ≤ n ∧ n ≤ h.posted.length ∧
    h.seen = (j + n) % h.isp.responseLength
  kept : h.posted = h.consumed ++
    slots h.isp.responseLength h.isp.responses (j + h.consumed.length) h.unread
  full : h.unread ≤ h.isp.responseLength

/-- Everything a run of safe steps keeps. -/
structure Inv (i j : Nat) (h : IspHistory) : Prop where
  requests : Requests i h
  responses : Responses j h
  handles : h.posted.map (·.handle) =
    (commandsOf (h.blocks.take h.taken)).map (·.head.handle)
  fresh : h.fresh = true → h.isp.Mirrored
  clear : h.isp.semaClear = true → h.fresh = true

theorem inv_start {s : Isp1040} (hs : Initialised s) : Inv s.requestOut s.responseIn (start s) where
  requests :=
    { length := hs.requestLength
      out := by simpa [start, entriesOf] using (Nat.mod_eq_of_lt hs.request.2).symm
      inp := by simpa [start, entriesOf, hs.request.1] using (Nat.mod_eq_of_lt hs.request.2).symm
      prod := by simpa [start, entriesOf] using (Nat.mod_eq_of_lt hs.request.2).symm
      room := by
        have := hs.requestLength.1
        simp [start, entriesOf]
        omega
      ring := rfl
      order := ⟨le_rfl, Nat.zero_le _⟩
      wellFormed := by simp [start]
      pending := by simp [start] }
  responses :=
    { length := hs.responseLength
      inp := by simpa [start] using (Nat.mod_eq_of_lt hs.response.2).symm
      cons := by simpa [start] using (Nat.mod_eq_of_lt hs.response.2).symm
      seen := ⟨0, le_rfl, le_rfl, by simpa [start] using (Nat.mod_eq_of_lt hs.response.2).symm⟩
      kept := by simp [start, unread]
      full := by simp [start, unread] }
  handles := rfl
  fresh _ := hs.pointers
  clear _ := rfl

/-- A write that leaves the queues as they are. -/
structure SameQueues (s s' : Isp1040) : Prop where
  requests : s'.requests = s.requests
  requestLength : s'.requestLength = s.requestLength
  requestIn : s'.requestIn = s.requestIn
  requestOut : s'.requestOut = s.requestOut
  responseLength : s'.responseLength = s.responseLength
  responseIn : s'.responseIn = s.responseIn
  responses : s'.responses = s.responses
  queuePending : s'.queuePending = s.queuePending

theorem Inv.same (hi : Inv i j h) {s : Isp1040} {f : Bool} (hq : SameQueues h.isp s)
    (hf : f = true → s.Mirrored) (hc : s.semaClear = true → f = true) :
    Inv i j { h with isp := s, fresh := f } := by
  obtain ⟨hreq, hres, hh, -, -⟩ := hi
  refine ⟨?_, ?_, hh, hf, hc⟩
  · obtain ⟨h1, h2, h3, h4, h5, h6, h7, h8, h9⟩ := hreq
    refine ⟨?_, ?_, ?_, ?_, ?_, ?_, h7, h8, ?_⟩
    all_goals simp only [hq.requests, hq.requestLength, hq.requestIn, hq.requestOut, hq.queuePending]
    all_goals assumption
  · obtain ⟨h1, h2, h3, h4, h5, h6⟩ := hres
    refine ⟨?_, ?_, ?_, ?_, ?_, ?_⟩
    all_goals simp only [hq.responseLength, hq.responseIn, hq.responses]
    all_goals assumption

/-! ## Slices -/

theorem waiting_split {n : Nat} (hle : h.taken ≤ n) (hn : n ≤ h.blocks.length) :
    h.blocks.drop h.taken = h.waiting n ++ h.blocks.drop n ∧ (h.waiting n).length = n - h.taken ∧
      h.blocks.take n = h.blocks.take h.taken ++ h.waiting n := by
  have hmin : min h.taken n = h.taken := by omega
  refine ⟨?_, ?_, ?_⟩
  · have hw : h.waiting n = (h.blocks.drop h.taken).take (n - h.taken) := by
      rw [waiting, List.drop_take]
    rw [hw]
    nth_rewrite 1 [← List.take_append_drop (n - h.taken) (h.blocks.drop h.taken)]
    rw [List.drop_drop, Nat.add_sub_cancel' hle]
  · simp [waiting]
    omega
  · have ht : h.blocks.take h.taken = (h.blocks.take n).take h.taken := by
      rw [List.take_take, hmin]
    rw [ht, waiting, List.take_append_drop]

/-- The blocks taken and left once a slice has run. -/
theorem slice_split {n : Nat} :
    h.blocks.take (h.taken + min ISP_QUEUE_SLICE (n - h.taken)) =
        h.blocks.take h.taken ++ (h.waiting n).take ISP_QUEUE_SLICE ∧
      h.blocks.drop h.taken = (h.waiting n).take ISP_QUEUE_SLICE ++
        h.blocks.drop (h.taken + min ISP_QUEUE_SLICE (n - h.taken)) := by
  have hw : (h.waiting n).take ISP_QUEUE_SLICE =
      (h.blocks.drop h.taken).take (min ISP_QUEUE_SLICE (n - h.taken)) := by
    rw [waiting, List.drop_take, List.take_take]
  rw [hw]
  exact ⟨List.take_add, by rw [← List.drop_drop, List.take_append_drop]⟩

/-- A slice on the adapter with these blocks announced. -/
theorem inv_slice (hi : Inv i j h) {n : Nat} (hle : h.taken ≤ n) (hn : n ≤ h.blocks.length)
    {s : Isp1040} (hs : s.requests = h.isp.requests) (hl : s.requestLength = h.isp.requestLength)
    (hin : s.requestIn = (i + (entriesOf (h.blocks.take n)).length) % h.isp.requestLength)
    (ho : s.requestOut = h.isp.requestOut) (hm : s.responseLength = h.isp.responseLength)
    (hri : s.responseIn = h.isp.responseIn) (hr : s.responses = h.isp.responses)
    (hmir : h.isp.Mirrored → s.Mirrored) (hsema : s.sema = h.isp.sema)
    (hroom : h.unread + ((h.waiting n).take ISP_QUEUE_SLICE).countP (·.head.isCommand) ≤
      h.isp.responseLength)
    (outcomes : Nat → IspOutcome) : Inv i j (h.slice n (s.runRequestQueue outcomes)) := by
  obtain ⟨hreq, hres, hh, hfresh, hclear⟩ := hi
  obtain ⟨hsplit, hlen, htake⟩ := waiting_split hle hn
  have hsize : (entriesOf (h.blocks.drop h.taken)).length =
      (entriesOf (h.waiting n)).length + (entriesOf (h.blocks.drop n)).length := by
    rw [hsplit, entriesOf_append, List.length_append]
  -- what the adapter finds in the ring is what was announced
  have hring : slots s.requestLength s.requests (i + (entriesOf (h.blocks.take h.taken)).length)
      (entriesOf (h.waiting n)).length = entriesOf (h.waiting n) := by
    have hfull := hreq.ring
    rw [hsize, Lib.Ring.slots_add, hsplit, entriesOf_append] at hfull
    rw [hs, hl]
    exact (List.append_inj hfull (by simp)).1
  obtain ⟨ht, hpend⟩ := s.runRequestQueue_spec outcomes
    (o := i + (entriesOf (h.blocks.take h.taken)).length) (p := j + h.posted.length)
    (by rw [hm]; have := hres.length.1; omega) (by rw [ho, hreq.out, hl])
    (by rw [hri, hres.inp, hm])
    (fun b (hb : b ∈ h.waiting n) =>
      hreq.wellFormed b (List.mem_of_mem_take (List.mem_of_mem_drop hb)))
    (by rw [hin, hl, htake, entriesOf_append, List.length_append, Nat.add_assoc])
    (by rw [hl]; have := hreq.room; omega) hring
  obtain ⟨htaken, hleft⟩ := slice_split (h := h) (n := n)
  have hcount : (s.runRequestQueue outcomes).2.length =
      ((h.waiting n).take ISP_QUEUE_SLICE).countP (·.head.isCommand) := by
    have := congrArg List.length ht.handles
    rwa [List.length_map, List.length_map, commandsOf, ← List.countP_eq_length_filter] at this
  -- as many responses more as the slice has commands
  have hunread : (h.slice n (s.runRequestQueue outcomes)).unread =
      h.unread + (s.runRequestQueue outcomes).2.length := by
    have hle' : h.consumed.length ≤ h.posted.length := by
      rw [hres.kept, List.length_append]
      exact Nat.le_add_right _ _
    simp only [unread, slice, List.length_append]
    omega
  have hsetup := ht.setup
  have hL : (s.runRequestQueue outcomes).1.requestLength = h.isp.requestLength :=
    hsetup.requestLength.trans hl
  have hM : (s.runRequestQueue outcomes).1.responseLength = h.isp.responseLength :=
    hsetup.responseLength.trans hm
  have hsizes : (entriesOf (h.blocks.drop h.taken)).length =
      (entriesOf ((h.waiting n).take ISP_QUEUE_SLICE)).length +
        (entriesOf (h.blocks.drop (h.taken + min ISP_QUEUE_SLICE (n - h.taken)))).length := by
    rw [hleft, entriesOf_append, List.length_append]
  -- the request queue, the response queue, and the handles answered
  refine ⟨⟨?_, ?_, ?_, ?_, ?_, ?_, ?_, hreq.wellFormed, ?_⟩, ⟨?_, ?_, ?_, ?_, ?_, ?_⟩, ?_, ?_, ?_⟩
  · exact hL.symm ▸ hreq.length
  · show (s.runRequestQueue outcomes).1.requestOut = _
    rw [ht.out, hl]
    simp only [slice, htaken, entriesOf_append, List.length_append, hL, Nat.add_assoc]
  · show (s.runRequestQueue outcomes).1.requestIn = _
    rw [hsetup.requestIn, hin]
    simp only [slice, hL]
  · show h.prod = _
    rw [hreq.prod]
    simp only [slice, hL]
  · show (entriesOf (h.blocks.drop (h.taken + min ISP_QUEUE_SLICE (n - h.taken)))).length <
      (s.runRequestQueue outcomes).1.requestLength
    rw [hL]
    have := hreq.room
    omega
  · show slots (s.runRequestQueue outcomes).1.requestLength
      (s.runRequestQueue outcomes).1.requests _ _ = _
    rw [hL, hsetup.requests, hs]
    have hfull := hreq.ring
    rw [hsizes, Lib.Ring.slots_add, hleft, entriesOf_append] at hfull
    have h2 := (List.append_inj hfull (by simp)).2
    simpa only [slice, htaken, entriesOf_append, List.length_append, Nat.add_assoc] using h2
  · exact ⟨by simp only [slice]; omega, hn⟩
  · intro hlt
    refine hpend ?_
    simp only [slice] at hlt
    omega
  · exact hM.symm ▸ hres.length
  · show (s.runRequestQueue outcomes).1.responseIn = _
    rw [ht.posts.responseIn, hm]
    simp only [slice, hM, List.length_append, Nat.add_assoc]
  · show h.cons = _
    rw [hres.cons]
    simp only [slice, hM]
  · obtain ⟨m, h1, h2, h3⟩ := hres.seen
    refine ⟨m, h1, ?_, ?_⟩
    · simp only [slice, List.length_append]
      omega
    · simpa only [slice, hM] using h3
  · rw [hunread]
    show h.posted ++ _ = h.consumed ++ slots (s.runRequestQueue outcomes).1.responseLength
      (s.runRequestQueue outcomes).1.responses (j + h.consumed.length) _
    have hp : j + h.posted.length = j + h.consumed.length + h.unread := by
      have := congrArg List.length hres.kept
      rw [List.length_append, Lib.Ring.length_slots] at this
      omega
    -- the new responses follow those in the ring, which they do not overwrite
    rw [hM, ht.posts.responses, hm, hr, hp, Lib.Ring.slots_fill_append (by omega),
      ← List.append_assoc, ← hres.kept]
  · rw [hunread]
    show _ ≤ (s.runRequestQueue outcomes).1.responseLength
    omega
  · show (h.posted ++ (s.runRequestQueue outcomes).2).map (·.handle) = _
    rw [List.map_append, hh, ht.handles, ← List.map_append, ← commandsOf_append]
    simp only [slice, htaken]
  · intro hf
    refine ht.mirrored ?_
    simp only [slice, Bool.or_eq_true, decide_eq_true_eq] at hf
    rcases hf with hf | hf
    · exact Or.inr (hmir (hfresh hf))
    · refine Or.inl fun hnil => ?_
      have := congrArg List.length hnil
      rw [List.length_take, hlen, List.length_nil] at this
      have : ISP_QUEUE_SLICE = 32 := rfl
      omega
  · intro hc
    have hc' : h.isp.semaClear = true := by
      simpa only [Isp1040.semaClear, slice, hsetup.sema, hsema] using hc
    simp [slice, hclear hc']

/-! ## Steps -/

theorem size_eq : (entriesOf h.blocks).length =
    (entriesOf (h.blocks.take h.taken)).length + (entriesOf (h.blocks.drop h.taken)).length := by
  rw [← List.length_append, ← entriesOf_append, List.take_append_drop]

theorem inv_submit (hi : Inv i j h) {b : IspBlock} (ha : h.Allowed (.submit b)) :
    Inv i j (h.step chip (.submit b)) := by
  obtain ⟨hwf, hfit⟩ := ha
  obtain ⟨hreq, hres, hh, hfresh, hclear⟩ := hi
  have hle : h.taken ≤ h.blocks.length := hreq.order.1.trans hreq.order.2
  have hdist : (h.prod + h.isp.requestLength - h.isp.requestOut) % h.isp.requestLength =
      (entriesOf (h.blocks.drop h.taken)).length := by
    rw [hreq.prod, hreq.out, size_eq, ← Nat.add_assoc]
    exact Lib.Ring.add_mod_sub_mod hreq.room
  rw [hdist] at hfit
  have htake : (h.blocks ++ [b]).take h.taken = h.blocks.take h.taken :=
    List.take_append_of_le_length hle
  have hdrop : (h.blocks ++ [b]).drop h.taken = h.blocks.drop h.taken ++ [b] :=
    List.drop_append_of_le_length hle
  have hsize : (entriesOf [b]).length = b.entries.length := by simp [entriesOf]
  refine ⟨⟨hreq.length, ?_, ?_, ?_, ?_, ?_, ?_, ?_, hreq.pending⟩,
    ⟨hres.length, hres.inp, hres.cons, hres.seen, hres.kept, hres.full⟩, ?_, hfresh, hclear⟩
  · simpa only [step, htake] using hreq.out
  · show h.isp.requestIn = _
    rw [hreq.inp]
    simp only [step, List.take_append_of_le_length hreq.order.2]
  · show (h.prod + b.entries.length) % h.isp.requestLength = _
    rw [hreq.prod, Nat.mod_add_mod]
    simp only [step, entriesOf_append, List.length_append, hsize, Nat.add_assoc]
  · simp only [step, hdrop, entriesOf_append, List.length_append, hsize]
    exact hfit
  · simp only [step, htake, hdrop, entriesOf_append, List.length_append, hsize]
    rw [hreq.prod, Lib.Ring.fill_mod, size_eq, ← Nat.add_assoc,
      Lib.Ring.slots_fill_append (by omega), hreq.ring]
    simp [entriesOf]
  · refine ⟨hreq.order.1, ?_⟩
    simp only [step, List.length_append]
    exact hreq.order.2.trans (Nat.le_add_right _ _)
  · intro b' hb'
    rcases List.mem_append.mp hb' with hb' | hb'
    · exact hreq.wellFormed b' hb'
    · rw [List.mem_singleton.mp hb']
      exact hwf
  · simpa only [step, htake] using hh

theorem inv_announce (hi : Inv i j h) {byMailbox : Bool} {outcomes : Nat → IspOutcome}
    (hs : h.Safe (.announce byMailbox outcomes)) :
    Inv i j (h.step chip (.announce byMailbox outcomes)) := by
  have hreq := hi.requests
  have hle : h.taken ≤ h.blocks.length := hreq.order.1.trans hreq.order.2
  have hval : (BitVec.ofNat 16 h.prod).toNat = h.prod := by
    rw [BitVec.toNat_ofNat, Nat.mod_eq_of_lt]
    rw [hreq.prod]
    exact (Nat.mod_lt _ (by have := hreq.length.1; omega)).trans hreq.length.2
  have hin : (BitVec.ofNat 16 h.prod).toNat =
      (i + (entriesOf (h.blocks.take h.blocks.length)).length) % h.isp.requestLength := by
    rw [hval, hreq.prod, List.take_length]
  have hq (m : Nat → Nat) : Inv i j (h.slice h.blocks.length (Isp1040.runRequestQueue
      { h.isp with mailbox := m, requestIn := (BitVec.ofNat 16 h.prod).toNat } outcomes)) :=
    inv_slice hi hle le_rfl
      (s := { h.isp with mailbox := m, requestIn := (BitVec.ofNat 16 h.prod).toNat })
      rfl rfl hin rfl rfl rfl rfl id rfl hs outcomes
  simp only [step]
  split
  · have hne : h.isp.requestLength ≠ 0 := by have := hreq.length.1; omega
    unfold Isp1040.writeMailbox
    rw [if_pos ⟨rfl, hne⟩]
    exact hq _
  · exact hq h.isp.mailbox

theorem inv_thread (hi : Inv i j h) {outcomes : Nat → IspOutcome} (hs : h.Safe (.thread outcomes)) :
    Inv i j (h.step chip (.thread outcomes)) := by
  simp only [step]
  split
  · rename_i hq
    exact inv_slice hi hi.requests.order.1 hi.requests.order.2 rfl rfl hi.requests.inp rfl rfl rfl
      rfl id rfl (hs hq) outcomes
  · exact hi

theorem inv_readIn (hi : Inv i j h) (ha : h.Allowed .readIn) : Inv i j (h.step chip .readIn) := by
  have hres := hi.responses
  have hm := hi.fresh (hi.clear ha)
  refine ⟨?_, ⟨hres.length, hres.inp, hres.cons, ?_, hres.kept, hres.full⟩, hi.handles, hi.fresh,
    hi.clear⟩
  · obtain ⟨h1, h2, h3, h4, h5, h6, h7, h8, h9⟩ := hi.requests
    exact ⟨h1, h2, h3, h4, h5, h6, h7, h8, h9⟩
  · refine ⟨h.posted.length, ?_, le_rfl, ?_⟩
    · show h.consumed.length ≤ _
      rw [hres.kept, List.length_append]
      exact Nat.le_add_right _ _
    · show h.isp.mailboxOut 5 = _
      rw [hm.2, hres.inp]
      rfl

theorem inv_consume (hi : Inv i j h) : Inv i j (h.step chip .consume) := by
  have hres := hi.responses
  simp only [step]
  split
  · exact hi
  · rename_i hne
    obtain ⟨n, h1, h2, h3⟩ := hres.seen
    have hlt : h.consumed.length < n := by
      rcases Nat.lt_or_eq_of_le h1 with hlt | heq
      · exact hlt
      · exact absurd (by rw [hres.cons, h3, heq]) hne
    obtain ⟨u, hu⟩ : ∃ u, h.unread = u + 1 := ⟨h.unread - 1, by unfold unread; omega⟩
    have hcell : h.isp.responses h.cons =
        h.isp.responses ((j + h.consumed.length) % h.isp.responseLength) := by rw [hres.cons]
    refine ⟨?_, ⟨hres.length, hres.inp, ?_, ⟨n, ?_, h2, h3⟩, ?_, ?_⟩, hi.handles, hi.fresh,
      hi.clear⟩
    · obtain ⟨h1, h2, h3, h4, h5, h6, h7, h8, h9⟩ := hi.requests
      exact ⟨h1, h2, h3, h4, h5, h6, h7, h8, h9⟩
    · rw [hres.cons, Nat.mod_add_mod, List.length_append]
      rfl
    · rw [List.length_append]
      exact hlt
    · have hu' : h.posted.length - (h.consumed ++ [h.isp.responses h.cons]).length = u := by
        rw [List.length_append, List.length_singleton]
        unfold unread at hu
        omega
      show h.posted = h.consumed ++ [h.isp.responses h.cons] ++ slots _ _ _
        (h.posted.length - (h.consumed ++ [h.isp.responses h.cons]).length)
      rw [hu', hcell, List.length_append, List.length_singleton, List.append_assoc,
        List.singleton_append, ← Nat.add_assoc, ← Lib.Ring.slots_succ, ← hu]
      exact hres.kept
    · have := hres.full
      unfold unread at this
      show h.posted.length - (h.consumed ++ [h.isp.responses h.cons]).length ≤ h.isp.responseLength
      rw [List.length_append]
      omega

/-- A command leaves the queues to the two that set them up, and mailboxes 4 and 5 as they were
copied. -/
theorem perform_queues (chip : IspChip) (s : Isp1040) (dma16 : Nat → Nat) {c : MboxCommand}
    (hc : c.setsQueue = false) : SameQueues s (s.perform chip dma16 c) ∧
      (s.perform chip dma16 c).mailboxOut 4 = s.mailboxOut 4 ∧
      (s.perform chip dma16 c).mailboxOut 5 = s.mailboxOut 5 := by
  cases c
  case initReqQueue => exact Bool.noConfusion hc
  case initResQueue => exact Bool.noConfusion hc
  -- by its fields, so that the words copied are not compared with RISC memory
  all_goals
    obtain ⟨⟩ := s
    exact ⟨⟨rfl, rfl, rfl, rfl, rfl, rfl, rfl, rfl⟩, rfl, rfl⟩

theorem mailboxDone_queues (s : Isp1040) (status : Nat) :
    SameQueues s (s.mailboxDone status) ∧ (s.mailboxDone status).mailboxOut 4 = s.mailboxOut 4 ∧
      (s.mailboxDone status).mailboxOut 5 = s.mailboxOut 5 :=
  ⟨⟨rfl, rfl, rfl, rfl, rfl, rfl, rfl, rfl⟩, rfl, rfl⟩

theorem mailboxDone_semaClear (s : Isp1040) (status : Nat) :
    (s.mailboxDone status).semaClear = false := by
  show decide (ISP_SEMA_LOCK &&& ISP_SEMA_LOCK = 0) = false
  decide

theorem finish_queues (s : Isp1040) (c : MboxCommand) : SameQueues s (s.finish c) ∧
    (s.finish c).mailboxOut 4 = s.mailboxOut 4 ∧ (s.finish c).mailboxOut 5 = s.mailboxOut 5 ∧
    (s.finish c).semaClear = false := by
  have hd := mailboxDone_semaClear s
  cases c
  case busReset =>
    have hf : s.finish .busReset = { s.mailboxDone Isp1040.ISP_MBOX_COMMAND_COMPLETE with
        pendingAsync := Isp1040.ISP_ASYNC_BUS_RESET } := by
      rw [Isp1040.finish, Isp1040.raiseAsync, hd]
      rfl
    rw [hf]
    exact ⟨⟨rfl, rfl, rfl, rfl, rfl, rfl, rfl, rfl⟩, rfl, rfl,
      hd Isp1040.ISP_MBOX_COMMAND_COMPLETE⟩
  all_goals exact ⟨⟨rfl, rfl, rfl, rfl, rfl, rfl, rfl, rfl⟩, rfl, rfl, hd _⟩

/-- A mailbox command answers with the registers it was given and takes the semaphore. -/
theorem mailboxCommand_spec (chip : IspChip) (s : Isp1040) (dma16 : Nat → Nat)
    (hc : (MboxCommand.commandOf (s.mailbox 0)).setsQueue = false) :
    SameQueues s (s.mailboxCommand chip dma16) ∧
      (s.mailboxCommand chip dma16).mailboxOut 4 = s.mailbox 4 ∧
      (s.mailboxCommand chip dma16).mailboxOut 5 = s.mailbox 5 ∧
      (s.mailboxCommand chip dma16).semaClear = false := by
  have hm : s.mailboxCommand chip dma16 =
      (Isp1040.perform chip { s with mailboxOut := s.mailbox } dma16
        (MboxCommand.commandOf (s.mailbox 0))).finish (MboxCommand.commandOf (s.mailbox 0)) := rfl
  rw [hm]
  generalize MboxCommand.commandOf (s.mailbox 0) = c at hc ⊢
  obtain ⟨hq, h4, h5⟩ := perform_queues chip { s with mailboxOut := s.mailbox } dma16 hc
  generalize Isp1040.perform chip { s with mailboxOut := s.mailbox } dma16 c = s1 at hq h4 h5 ⊢
  obtain ⟨hq', h4', h5', hclear⟩ := finish_queues s1 c
  exact ⟨⟨hq'.1.trans hq.1, hq'.2.trans hq.2, hq'.3.trans hq.3, hq'.4.trans hq.4,
    hq'.5.trans hq.5, hq'.6.trans hq.6, hq'.7.trans hq.7, hq'.8.trans hq.8⟩, h4'.trans h4,
    h5'.trans h5, hclear⟩

theorem inv_command (hi : Inv i j h) {dma16 : Nat → Nat} (ha : h.Allowed (.command dma16)) :
    Inv i j (h.step chip (.command dma16)) := by
  obtain ⟨hq, h4, h5, hclear⟩ := mailboxCommand_spec chip h.isp dma16 ha
  refine hi.same hq (fun hf => ?_) fun hc => ?_
  · obtain ⟨hm4, hm5⟩ := of_decide_eq_true hf
    exact ⟨h4.trans (hm4.trans hq.requestOut.symm), h5.trans (hm5.trans hq.responseIn.symm)⟩
  · rw [hclear] at hc
    exact Bool.noConfusion hc

theorem writeSema_spec (s : Isp1040) (value : BitVec 16) : SameQueues s (s.writeSema value) ∧
    (s.writeSema value).mailboxOut 4 = s.mailboxOut 4 ∧
    (s.writeSema value).mailboxOut 5 = s.mailboxOut 5 ∧
    ((s.writeSema value).semaClear = true → value &&& ISP_SEMA_LOCK = 0) := by
  have hbits : value &&& (ISP_SEMA_LOCK ||| ISP_SEMA_STATUS) &&& ISP_SEMA_LOCK =
      value &&& ISP_SEMA_LOCK := by
    rw [BitVec.and_assoc]
    rfl
  simp only [Isp1040.writeSema]
  split
  · rename_i hp
    have hclear : Isp1040.semaClear { s with
        sema := value &&& (ISP_SEMA_LOCK ||| ISP_SEMA_STATUS), pendingAsync := 0 } = true := hp.1
    simp only [Isp1040.raiseAsync, hclear, if_true]
    refine ⟨⟨rfl, rfl, rfl, rfl, rfl, rfl, rfl, rfl⟩, rfl, rfl, fun hc => ?_⟩
    have hlock : ISP_SEMA_LOCK &&& ISP_SEMA_LOCK = 0 := of_decide_eq_true hc
    exact absurd hlock (by decide)
  · refine ⟨⟨rfl, rfl, rfl, rfl, rfl, rfl, rfl, rfl⟩, rfl, rfl, fun hc => ?_⟩
    rw [← hbits]
    exact of_decide_eq_true hc

theorem inv_sema (hi : Inv i j h) {value : BitVec 16} (hs : h.Safe (.sema value)) :
    Inv i j (h.step chip (.sema value)) := by
  obtain ⟨hq, h4, h5, hclear⟩ := writeSema_spec h.isp value
  refine hi.same hq (fun hf => ?_) fun hc => hs (hclear hc)
  have hm := hi.fresh hf
  exact ⟨h4.trans (hm.1.trans hq.requestOut.symm), h5.trans (hm.2.trans hq.responseIn.symm)⟩

/-- A write that touches neither the queues nor what mirrors them. -/
theorem Inv.quiet (hi : Inv i j h) {s : Isp1040} (hq : SameQueues h.isp s)
    (hout : s.mailboxOut = h.isp.mailboxOut) (hsema : s.sema = h.isp.sema) :
    Inv i j { h with isp := s } := by
  refine hi.same hq (fun hf => ?_) fun hc => hi.clear ?_
  · have hm := hi.fresh hf
    unfold Isp1040.Mirrored
    rw [hout, hq.requestOut, hq.responseIn]
    exact hm
  · simpa only [Isp1040.semaClear, hsema] using hc

theorem inv_report (hi : Inv i j h) (byMailbox : Bool) :
    Inv i j (h.step chip (.report byMailbox)) := by
  cases byMailbox with
  | false => exact hi.quiet ⟨rfl, rfl, rfl, rfl, rfl, rfl, rfl, rfl⟩ rfl rfl
  | true =>
    have hne : h.isp.responseLength ≠ 0 := by have := hi.responses.length.1; omega
    have hw : (h.isp.writeMailbox (fun _ => ⟨0, 0, 0, 0, []⟩) 5 (BitVec.ofNat 16 h.cons)).1 =
        { h.isp with
          mailbox := Function.update h.isp.mailbox 5 (BitVec.ofNat 16 h.cons).toNat
          responseOut := (BitVec.ofNat 16 h.cons).toNat } := by
      unfold Isp1040.writeMailbox
      rw [if_neg (by simp), if_pos ⟨rfl, hne⟩]
      rfl
    show Inv i j { h with isp := _ }
    rw [if_pos rfl, hw]
    exact hi.quiet ⟨rfl, rfl, rfl, rfl, rfl, rfl, rfl, rfl⟩ rfl rfl

theorem inv_mailbox (hi : Inv i j h) {n : Fin 8} {value : BitVec 16}
    (ha : h.Allowed (.mailbox n value)) : Inv i j (h.step chip (.mailbox n value)) := by
  obtain ⟨h4, h5⟩ := ha
  show Inv i j { h with isp := (h.isp.writeMailbox _ n value).1 }
  unfold Isp1040.writeMailbox
  rw [if_neg fun hn => h4 hn.1, if_neg fun hn => h5 hn.1]
  exact hi.quiet ⟨rfl, rfl, rfl, rfl, rfl, rfl, rfl, rfl⟩ rfl rfl

theorem inv_step (hi : Inv i j h) {op : IspOp} (ha : h.Allowed op) (hs : h.Safe op) :
    Inv i j (h.step chip op) := by
  cases op with
  | submit b => exact inv_submit hi ha
  | announce byMailbox outcomes => exact inv_announce hi hs
  | thread outcomes => exact inv_thread hi hs
  | readIn => exact inv_readIn hi ha
  | consume => exact inv_consume hi
  | report byMailbox => exact inv_report hi byMailbox
  | mailbox n value => exact inv_mailbox hi ha
  | command dma16 => exact inv_command hi ha
  | sema value => exact inv_sema hi hs
  | clearInt => exact hi.quiet ⟨rfl, rfl, rfl, rfl, rfl, rfl, rfl, rfl⟩ rfl rfl
  | icr value => exact hi.quiet ⟨rfl, rfl, rfl, rfl, rfl, rfl, rfl, rfl⟩ rfl rfl

/-! ## Runs -/

theorem Reachable.inv {ok : IspHistory → IspOp → Prop}
    (hok : ∀ h op, ok h op → h.Allowed op ∧ h.Safe op) (hr : Reachable chip ok h) :
    ∃ i j, Inv i j h := by
  refine Lib.Reach.inv (P := fun h => ∃ i j, Inv i j h) ?_ ?_ hr
  · rintro h ⟨s, hs, rfl⟩
    exact ⟨_, _, inv_start hs⟩
  · intro h op hi hop
    obtain ⟨i, j, hi⟩ := hi
    obtain ⟨ha, hs⟩ := hok h op hop
    exact ⟨i, j, inv_step hi ha hs⟩

/-- What the driver relies on: one status entry for each command taken, in order, and nothing
announced left behind by an adapter at rest; the responses not yet consumed still in their slots;
the pointers in mailboxes 4 and 5 while the semaphore is clear. -/
structure Delivered (h : IspHistory) : Prop where
  answered : h.posted.map (·.handle) = (commandsOf (h.blocks.take h.taken)).map (·.head.handle)
  taken : h.taken ≤ h.announced ∧ h.announced ≤ h.blocks.length
  rest : h.isp.queuePending = false → h.taken = h.announced
  kept : h.posted = h.consumed ++ slots h.isp.responseLength h.isp.responses h.cons h.unread
  pointers : h.isp.semaClear = true → h.isp.Mirrored

theorem Inv.delivered (hi : Inv i j h) : Delivered h where
  answered := hi.handles
  taken := hi.requests.order
  rest := by
    intro hp
    rcases Nat.lt_or_eq_of_le hi.requests.order.1 with hlt | heq
    · rw [hi.requests.pending hlt] at hp
      exact Bool.noConfusion hp
    · exact heq
  kept := by
    rw [hi.responses.cons, Lib.Ring.slots_mod]
    exact hi.responses.kept
  pointers hc := hi.fresh (hi.clear hc)

/-- In every run of safe steps nothing is lost. -/
theorem isp_keeps_responses (hr : Reachable chip (fun h op => h.Allowed op ∧ h.Safe op) h) :
    Delivered h := by
  obtain ⟨i, j, hi⟩ := hr.inv fun _ _ hop => hop
  exact hi.delivered

/-- The two commands that set up the queues leave them initialised, the pointers given to both. -/
theorem initialised_of_commands (chip : IspChip) (s : Isp1040) (dma16 : Nat → Nat) {m m' : Nat → Nat}
    (hreq : MboxCommand.commandOf (m 0) = .initReqQueue)
    (hres : MboxCommand.commandOf (m' 0) = .initResQueue)
    (hn : 2 ≤ m 1 ∧ m 1 < 2 ^ 16) (hn' : 2 ≤ m' 1 ∧ m' 1 < 2 ^ 16) (hout : m 4 < m 1)
    (hin : m' 5 < m' 1) (h4 : m' 4 = m 4) (hidle : s.queuePending = false) :
    Initialised (Isp1040.mailboxCommand chip
      { Isp1040.mailboxCommand chip { s with mailbox := m } dma16 with mailbox := m' } dma16) := by
  have hfirst : Isp1040.mailboxCommand chip { s with mailbox := m } dma16 =
      Isp1040.mailboxDone { s with
        mailbox := m, mailboxOut := m, requestLength := m 1, requestIn := m 4, requestOut := m 4 }
        Isp1040.ISP_MBOX_COMMAND_COMPLETE := by
    simp only [Isp1040.mailboxCommand, hreq, Isp1040.perform, Isp1040.finish]
  obtain ⟨hq, -, -⟩ := mailboxDone_queues { s with
    mailbox := m, mailboxOut := m, requestLength := m 1, requestIn := m 4, requestOut := m 4 }
    Isp1040.ISP_MBOX_COMMAND_COMPLETE
  rw [← hfirst] at hq
  generalize Isp1040.mailboxCommand chip { s with mailbox := m } dma16 = s1 at hq ⊢
  have hsecond : Isp1040.mailboxCommand chip { s1 with mailbox := m' } dma16 =
      Isp1040.mailboxDone { s1 with
        mailbox := m', mailboxOut := m', responseLength := m' 1, responseIn := m' 5
        responseOut := m' 5 } Isp1040.ISP_MBOX_COMMAND_COMPLETE := by
    simp only [Isp1040.mailboxCommand, hres, Isp1040.perform, Isp1040.finish]
  obtain ⟨hq', h4', h5'⟩ := mailboxDone_queues { s1 with
    mailbox := m', mailboxOut := m', responseLength := m' 1, responseIn := m' 5
    responseOut := m' 5 } Isp1040.ISP_MBOX_COMMAND_COMPLETE
  rw [← hsecond] at hq' h4' h5'
  have hro : (Isp1040.mailboxCommand chip { s1 with mailbox := m' } dma16).responseOut = m' 5 := by
    rw [hsecond]
    rfl
  generalize Isp1040.mailboxCommand chip { s1 with mailbox := m' } dma16 = s2 at hq' h4' h5' hro ⊢
  have hlen := hq'.requestLength.trans hq.requestLength
  have hout' := hq'.requestOut.trans hq.requestOut
  have hinp := hq'.requestIn.trans hq.requestIn
  refine ⟨?_, ?_, ⟨hinp.trans hout'.symm, ?_⟩, ⟨hro.trans hq'.responseIn.symm, ?_⟩,
    ⟨h4'.trans (h4.trans hout'.symm), h5'.trans hq'.responseIn.symm⟩,
    hq'.queuePending.trans (hq.queuePending.trans hidle)⟩
  · rw [hlen]
    exact hn
  · rw [hq'.responseLength]
    exact hn'
  · rw [hlen, hout']
    exact hout
  · rw [hq'.responseIn, hq'.responseLength]
    exact hin

/-- Queues of these lengths, as the two commands leave them. -/
def emptyQueues (requestLength responseLength : Nat) : Isp1040 where
  icr := 0
  isr := 0
  sema := 0
  conf1 := 0
  mailbox _ := 0
  mailboxOut _ := 0
  riscReset := false
  firmwareRunning := true
  requestLength := requestLength
  requestIn := 0
  requestOut := 0
  responseLength := responseLength
  responseIn := 0
  responseOut := 0
  initiatorId _ := 7
  pendingAsync := 0
  irqAsserted := false
  queuePending := false
  riscRam _ := 0
  requests _ := ⟨0, 0, 0⟩
  responses _ := ⟨0, 0, 0, 0, 0, 0, 0, 0, 0, []⟩

theorem emptyQueues_initialised {n m : Nat} (hn : 2 ≤ n ∧ n < 2 ^ 16) (hm : 2 ≤ m ∧ m < 2 ^ 16) :
    Initialised (emptyQueues n m) :=
  ⟨hn, hm, ⟨rfl, Nat.lt_of_lt_of_le Nat.zero_lt_two hn.1⟩,
    ⟨rfl, Nat.lt_of_lt_of_le Nat.zero_lt_two hm.1⟩, ⟨rfl, rfl⟩, rfl⟩

/-- A command of one slot. -/
def command (handle : BitVec 32) : IspBlock := ⟨⟨ISP_ENTRY_TYPE_REQUEST, 1, handle⟩, []⟩

theorem command_wellFormed (handle : BitVec 32) : (command handle).WellFormed :=
  ⟨Or.inl rfl, rfl, by simp [command]⟩

/-- A command that the target answers with good status. -/
def good : Nat → IspOutcome := fun _ => ⟨0, 0, 0, 0, []⟩

def part : IspChip := ⟨1, true, false, false, false, 7, 65, 6⟩

/-- A command announced, its answer found in mailbox 5, consumed and reported. -/
def oneAnswered : List IspOp :=
  [.submit (command 9), .announce true good, .readIn, .consume, .report true]

theorem isp_keeps_responses_one :
    Delivered (oneAnswered.foldl (step part) (start (emptyQueues 2 2))) ∧
      (oneAnswered.foldl (step part) (start (emptyQueues 2 2))).consumed.map (·.handle) = [9] := by
  have h0 : Reachable part (fun h op => h.Allowed op ∧ h.Safe op) (start (emptyQueues 2 2)) :=
    .start ⟨_, emptyQueues_initialised (by decide) (by decide), rfl⟩
  have h1 := h0.next (show _ ∧ Safe _ (.submit (command 9)) from
    ⟨⟨command_wellFormed 9, by decide⟩, trivial⟩)
  have h2 := h1.next (show _ ∧ Safe _ (.announce true good) from
    ⟨trivial, by show _ ≤ _; decide +kernel⟩)
  have h3 := h2.next (show Allowed _ .readIn ∧ _ from ⟨by show _ = _; decide +kernel, trivial⟩)
  have h4 := h3.next (show Allowed _ .consume ∧ Safe _ .consume from ⟨trivial, trivial⟩)
  have h5 := h4.next (show Allowed _ (.report true) ∧ Safe _ (.report true) from ⟨trivial, trivial⟩)
  refine ⟨?_, by decide +kernel⟩
  simp only [oneAnswered, List.foldl_cons, List.foldl_nil]
  exact isp_keeps_responses h5

/-- A command announced and answered, a NO-OP, and the semaphore released. -/
def oneThenNoOp : List IspOp :=
  [.submit (command 9), .announce true good, .command (fun _ => 0), .sema 0]

/-- Three commands announced at once. -/
def threeAtOnce : List IspOp :=
  [.submit (command 1), .submit (command 2), .submit (command 3), .announce true good]

/-- The NO-OP's own mailbox 5 hides the answer once the semaphore is released, and of three answers
in a queue of two slots the last is written over the first. -/
theorem isp_loses_responses :
    (∃ h, Reachable part Allowed h ∧ h.isp.semaClear = true ∧
      h.isp.mailboxOut 5 ≠ h.isp.responseIn) ∧
    ∃ h, Reachable part Allowed h ∧
      h.posted ≠ h.consumed ++ slots h.isp.responseLength h.isp.responses h.cons h.unread := by
  refine ⟨⟨oneThenNoOp.foldl (step part) (start (emptyQueues 2 2)), ?_, ?_, ?_⟩,
    threeAtOnce.foldl (step part) (start (emptyQueues 4 2)), ?_, ?_⟩
  · have h0 : Reachable part Allowed (start (emptyQueues 2 2)) :=
      .start ⟨_, emptyQueues_initialised (by decide) (by decide), rfl⟩
    have h1 := h0.next (show Allowed _ (.submit (command 9)) from
      ⟨command_wellFormed 9, by decide⟩)
    have h2 := h1.next (show Allowed _ (.announce true good) from trivial)
    have h3 := h2.next (show Allowed _ (.command fun _ => 0) from by show _ = _; decide +kernel)
    simp only [oneThenNoOp, List.foldl_cons, List.foldl_nil]
    exact h3.next (show Allowed _ (.sema 0) from trivial)
  · decide +kernel
  · decide +kernel
  · have h0 : Reachable part Allowed (start (emptyQueues 4 2)) :=
      .start ⟨_, emptyQueues_initialised (by decide) (by decide), rfl⟩
    have h1 := h0.next (show Allowed _ (.submit (command 1)) from
      ⟨command_wellFormed 1, by decide⟩)
    have h2 := h1.next (show Allowed _ (.submit (command 2)) from
      ⟨command_wellFormed 2, by decide +kernel⟩)
    have h3 := h2.next (show Allowed _ (.submit (command 3)) from
      ⟨command_wellFormed 3, by decide +kernel⟩)
    simp only [threeAtOnce, List.foldl_cons, List.foldl_nil]
    exact h3.next (show Allowed _ (.announce true good) from trivial)
  · decide +kernel

end IspHistory

end Alphabox.Pci
