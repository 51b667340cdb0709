import DebianKernel.Carl9170.Refine
import Mathlib.Tactic.IntervalCases

/-!
# The start of the carl9170 firmware

`dma_init_descriptors`: each queue gets a terminator, and each block goes to the queue of free
blocks for the host or for the radio.

Result: `start_ok`, what the memory and the accounts are like when the firmware begins to work.
-/

namespace DebianKernel.Carl9170

open Board CountedRing Firmware Shares

variable {n : Nat}

/-! ## The code -/

/-- `AR9170_TERMINATOR_NUMBER`. -/
def terminatorNumber (n : Nat) : Nat := 10 + 1 + n

/-- The terminators of the queues. The ninth and the tenth are the descriptors of the firmware. -/
def terminatorOf : Place n → Nat
  | .up => 0
  | .down => 1
  | .tx i => 2 + i
  | .retry => 7
  | .rx => 8
  | .cab v => 11 + v

def initQueue (d : Addr) : Queue := ⟨d, d⟩

def clearTerminators (count : Nat) (h : Heap Buffer) : Heap Buffer :=
  (List.range count).foldl (fun h i =>
    h.upd (.terminator i) fun _ => clearDescriptor (.terminator i)) h

/-- A turn of the second loop of `dma_init_descriptors`. -/
def initBlock (fuel txBlocks : Nat) (s : Firmware n) (i : Nat) : Option (Firmware n) :=
  let s := { s with
    mem := s.mem.upd (.block i) fun _ => fillDescriptor (.block i) blockSize (.data i) }
  if i < txBlocks then s.reclaim fuel .down (.block i) else s.reclaim fuel .rx (.block i)

/-- The end of `dma_init_descriptors`: the descriptors that the firmware keeps. -/
def initKept (s : Firmware n) : Firmware n :=
  let s := { s with
    mem := s.mem.upd s.intDesc fun d =>
      { d with dataSize := blockSize, dataAddr := some ⟨.rsp, 0⟩ } }
  { s with ctx := { s.ctx with intDescAvailable := true, fwDescAvailable := true } }

/-- `dma_init_descriptors`, with `blocks` blocks, of which `txBlocks` are for the host. -/
def dmaInitDescriptors (fuel blocks txBlocks : Nat) (s : Firmware n) : Option (Firmware n) :=
  let s := { s with
    mem := clearTerminators (terminatorNumber n) s.mem
    queue := fun p => initQueue (.terminator (terminatorOf p))
    intDesc := .terminator 9
    fwDesc := .terminator 10 }
  ((List.range blocks).foldlM (initBlock fuel txBlocks) s).map initKept

/-- `fw`, which is zero at first. -/
def startContext (super : Buffer → Super) (slots : Nat → TxStatus) : Context n :=
  { super, intDescAvailable := false, fwDescAvailable := false, fwDescData := none,
    cabQueueLen := fun _ => 0, queuedBar := 0, txStatus := empty slots, sent := [], taken := [] }

def powerOn (mem : Heap Buffer) (super : Buffer → Super) (slots : Nat → TxStatus) : Firmware n :=
  { mem, queue := fun _ => initQueue .null, intDesc := .null, fwDesc := .null,
    ctx := startContext super slots }

/-! ## The descriptors -/

/-- All descriptors of `dma_mem`. -/
def descriptors (n blocks : Nat) : Multiset Addr :=
  (Multiset.range (terminatorNumber n)).map .terminator + (Multiset.range blocks).map .block

theorem mem_descriptors {blocks : Nat} {a : Addr} : a ∈ descriptors n blocks ↔
    (∃ i < terminatorNumber n, a = .terminator i) ∨ ∃ i < blocks, a = .block i := by
  simp only [descriptors, Multiset.mem_add, Multiset.mem_map, Multiset.mem_range, eq_comm]

theorem descriptors_nodup (n blocks : Nat) : (descriptors n blocks).Nodup := by
  rw [descriptors, Multiset.nodup_add]
  refine ⟨(Multiset.nodup_range _).map fun i j h => Addr.terminator.inj h,
    (Multiset.nodup_range _).map fun i j h => Addr.block.inj h, ?_⟩
  rw [Multiset.disjoint_left]
  intro a ha hb
  obtain ⟨i, -, rfl⟩ := Multiset.mem_map.mp ha
  obtain ⟨j, -, h⟩ := Multiset.mem_map.mp hb
  exact nomatch h

theorem card_descriptors (n blocks : Nat) :
    (descriptors n blocks).card = terminatorNumber n + blocks := by
  rw [descriptors, Multiset.card_add, Multiset.card_map, Multiset.card_map, Multiset.card_range,
    Multiset.card_range]

theorem descriptors_succ (n blocks : Nat) :
    descriptors n (blocks + 1) = .block blocks ::ₘ descriptors n blocks := by
  rw [descriptors, descriptors, Multiset.range_succ, Multiset.map_cons, Multiset.add_cons]

theorem clearTerminators_apply (h : Heap Buffer) {count i : Nat} (hi : i < count) :
    clearTerminators count h (.terminator i) = clearDescriptor (.terminator i) := by
  induction count with
  | zero => exact absurd hi (Nat.not_lt_zero i)
  | succ count ih =>
    rw [clearTerminators, List.range_succ, List.foldl_append, List.foldl_cons, List.foldl_nil,
      ← clearTerminators]
    rcases Nat.lt_succ_iff_lt_or_eq.mp hi with hlt | rfl
    · rw [Heap.upd_ne]
      · exact ih hlt
      · exact fun heq => Nat.ne_of_lt hlt (Addr.terminator.inj heq)
    · exact Heap.upd_self _ _ _

theorem terminatorOf_lt (p : Place n) : terminatorOf p < terminatorNumber n := by
  cases p with
  | tx i =>
    have hi := i.isLt
    rw [terminatorOf, terminatorNumber]
    omega
  | cab v =>
    have hv := v.isLt
    rw [terminatorOf, terminatorNumber]
    omega
  | _ =>
    rw [terminatorOf, terminatorNumber]
    omega

theorem terminatorOf_injective : Function.Injective (terminatorOf (n := n)) := by
  intro p q h
  cases p <;> cases q <;> simp only [terminatorOf] at h <;>
    first
      | rfl
      | omega
      | exact congrArg _ (Fin.ext (by omega))

theorem terminatorOf_ne (p : Place n) : terminatorOf p ≠ 9 ∧ terminatorOf p ≠ 10 := by
  cases p with
  | tx i =>
    have hi := i.isLt
    rw [terminatorOf]
    omega
  | _ =>
    rw [terminatorOf]
    omega

theorem exists_terminatorOf {i : Nat} (hi : i < terminatorNumber n) (h9 : i ≠ 9) (h10 : i ≠ 10) :
    ∃ p : Place n, terminatorOf p = i := by
  rw [terminatorNumber] at hi
  rcases Nat.lt_or_ge i 11 with hlow | hhigh
  · interval_cases i
    · exact ⟨.up, rfl⟩
    · exact ⟨.down, rfl⟩
    · exact ⟨.tx 0, rfl⟩
    · exact ⟨.tx 1, rfl⟩
    · exact ⟨.tx 2, rfl⟩
    · exact ⟨.tx 3, rfl⟩
    · exact ⟨.tx 4, rfl⟩
    · exact ⟨.retry, rfl⟩
    · exact ⟨.rx, rfl⟩
    · exact absurd rfl h9
    · exact absurd rfl h10
  · refine ⟨.cab ⟨i - 11, by omega⟩, ?_⟩
    exact Nat.add_sub_of_le hhigh

/-! ## The queues while they are filled -/

section

variable {s : Firmware n} {ps : Place n → List (List Addr)} {fuel txBlocks i : Nat}

/-- The descriptors that the firmware keeps. -/
def kept : Loose := [(.terminator 9, []), (.terminator 10, [])]

/-- A descriptor comes into use. -/
theorem Sound.add {β ι : Type} [Fintype ι] {U : Multiset Addr} {h : Heap β} {q : ι → Queue}
    {ps : ι → List (List Addr)} {loose : Loose} {d : Addr} {x : Desc β}
    (hs : Sound U h q ps loose) (hd : d ∉ U) (hx : x.lastAddr = d) :
    Sound (d ::ₘ U) (h.upd d fun _ => x) q ps ((d, []) :: loose) := by
  have hloose : d ∉ looseAddrs loose := fun hmem => hd (hs.whole ▸ Multiset.mem_add.mpr (.inl hmem))
  have hqueues : ∀ i, d ∉ addrs (q i) (ps i) := fun i hmem =>
    hd (hs.whole ▸ Multiset.mem_add.mpr (.inr (mem_total.mpr ⟨i, hmem⟩)))
  have hsame : ∀ a, a ≠ d → h.upd d (fun _ => x) a = h a := fun a ha => Heap.upd_ne h ha _
  refine ⟨fun i => ?_, fun y hy => ?_, ?_, Multiset.nodup_cons.mpr ⟨hd, hs.nodup⟩⟩
  · have hout : ∀ a ∈ addrs (q i) (ps i), a ≠ d := by
      rintro a ha rfl
      exact hqueues i ha
    exact (hs.holds i).congr (fun a ha => by rw [hsame a (hout a ha)])
      fun a ha => by rw [hsame a (hout a ha)]
  · rcases List.mem_cons.mp hy with rfl | hmem
    · refine ⟨⟨_, rfl, rfl⟩, ?_, List.nodup_singleton d⟩
      rw [Heap.upd_self]
      exact hx
    · have hout : ∀ a ∈ y.1 :: y.2, a ≠ d := by
        rintro a ha rfl
        exact hloose (List.mem_flatten.mpr ⟨y.1 :: y.2, List.mem_map.mpr ⟨y, hmem, rfl⟩, ha⟩)
      exact (hs.packet y hmem).congr (fun a ha => by rw [hsame a (hout a ha)])
        (by rw [hsame y.1 (hout y.1 List.mem_cons_self)])
  · rw [looseAddrs_cons, add_assoc, hs.whole]
    rfl

def startFrames (txBlocks i : Nat) : Place n → List Frame
  | .down => ((List.range i).filter fun j => j < txBlocks).map fun j => [⟨.data j, 0⟩]
  | .rx => ((List.range i).filter fun j => ¬j < txBlocks).map fun j => [⟨.data j, 0⟩]
  | _ => []

/-- The memory after `i` blocks came to their queues. -/
structure Filled (txBlocks i : Nat) (c : Context n) (s : Firmware n)
    (ps : Place n → List (List Addr)) : Prop where
  sound : Sound (descriptors n i) s.mem s.queue ps kept
  frames : ∀ p, (ps p).map (payload s.mem) = (startFrames txBlocks i p).map (List.map some)
  intDesc : s.intDesc = .terminator 9
  fwDesc : s.fwDesc = .terminator 10
  ctx : s.ctx = c

theorem filled_zero (txBlocks : Nat) (c : Context n) (mem : Heap Buffer) : Filled txBlocks 0 c
    { mem := clearTerminators (terminatorNumber n) mem,
      queue := fun p => initQueue (.terminator (terminatorOf p)),
      intDesc := .terminator 9, fwDesc := .terminator 10, ctx := c } fun _ => [] where
  sound := by
    have hlow : ∀ i < terminatorNumber n,
        clearTerminators (terminatorNumber n) mem (.terminator i) =
          clearDescriptor (.terminator i) := fun i => clearTerminators_apply mem
    have hlast : ∀ i < terminatorNumber n,
        Packet (clearTerminators (terminatorNumber n) mem) (.terminator i) [] := fun i hi =>
      ⟨⟨_, rfl, rfl⟩, by rw [hlow i hi]; rfl, List.nodup_singleton _⟩
    have hnine : 9 < terminatorNumber n ∧ 10 < terminatorNumber n := by
      rw [terminatorNumber]
      omega
    refine ⟨fun p => ⟨rfl, fun pk hpk => absurd hpk List.not_mem_nil, List.nodup_singleton _⟩,
      fun x hx => ?_, ?_, descriptors_nodup n 0⟩
    · rcases List.mem_cons.mp hx with rfl | hx
      · exact hlast 9 hnine.1
      · rw [List.mem_singleton.mp hx]
        exact hlast 10 hnine.2
    · have htotal : total (queueAddrs (fun p : Place n => initQueue (.terminator (terminatorOf p)))
          fun _ => []) = Finset.univ.val.map fun p : Place n => .terminator (terminatorOf p) :=
        total_singleton _
      have hinj : Function.Injective fun p : Place n => Addr.terminator (terminatorOf p) :=
        fun p q h => terminatorOf_injective (Addr.terminator.inj h)
      have hkept : (looseAddrs kept).Nodup :=
        List.nodup_cons.mpr
          ⟨fun h => absurd (List.mem_singleton.mp h) nofun, List.nodup_singleton _⟩
      have hmem : ∀ a, a ∈ looseAddrs kept ↔ a = .terminator 9 ∨ a = .terminator 10 := fun a => by
        simp [looseAddrs, kept]
      have hnodup : (looseAddrs kept + Finset.univ.val.map fun p : Place n =>
          Addr.terminator (terminatorOf p)).Nodup := by
        refine Multiset.nodup_add.mpr ⟨hkept, Finset.univ.nodup.map hinj, ?_⟩
        rw [Multiset.disjoint_left]
        intro a ha hb
        obtain ⟨p, -, rfl⟩ := Multiset.mem_map.mp hb
        rcases (hmem _).mp ha with heq | heq
        · exact (terminatorOf_ne p).1 (Addr.terminator.inj heq)
        · exact (terminatorOf_ne p).2 (Addr.terminator.inj heq)
      rw [htotal]
      refine (Multiset.Nodup.ext hnodup (descriptors_nodup n 0)).mpr fun a => ?_
      rw [Multiset.mem_add, hmem, mem_descriptors, Multiset.mem_map]
      constructor
      · rintro ((rfl | rfl) | ⟨p, -, rfl⟩)
        · exact .inl ⟨9, hnine.1, rfl⟩
        · exact .inl ⟨10, hnine.2, rfl⟩
        · exact .inl ⟨_, terminatorOf_lt p, rfl⟩
      · rintro (⟨i, hi, rfl⟩ | ⟨i, hi, -⟩)
        · by_cases h9 : i = 9
          · exact .inl (.inl (congrArg _ h9))
          · by_cases h10 : i = 10
            · exact .inl (.inr (congrArg _ h10))
            · obtain ⟨p, hp⟩ := exists_terminatorOf hi h9 h10
              exact .inr ⟨p, Finset.mem_univ p, congrArg _ hp⟩
        · exact absurd hi (Nat.not_lt_zero i)
  frames := by
    intro p
    cases p <;> rfl
  intDesc := rfl
  fwDesc := rfl
  ctx := rfl

/-- The queue of block `i`. -/
def blockQueue (n txBlocks i : Nat) : Place n := if i < txBlocks then .down else .rx

theorem startFrames_succ (p : Place n) : startFrames txBlocks (i + 1) p =
    startFrames txBlocks i p ++
      if p = blockQueue n txBlocks i then [[⟨.data i, 0⟩]] else [] := by
  rw [blockQueue]
  by_cases hi : i < txBlocks
  · rw [if_pos hi]
    cases p <;> simp [startFrames, List.range_succ, List.filter_append, hi]
  · rw [if_neg hi]
    cases p <;> simp [startFrames, List.range_succ, List.filter_append, hi, not_lt.mp hi]

theorem initBlock_eq (s : Firmware n) : initBlock fuel txBlocks s i =
    Firmware.reclaim fuel { s with
      mem := s.mem.upd (.block i) fun _ => fillDescriptor (.block i) blockSize (.data i) }
      (blockQueue n txBlocks i) (.block i) := by
  rw [initBlock, blockQueue]
  split <;> rfl

theorem Filled.step {c : Context n} (h : Filled txBlocks i c s ps)
    (hfuel : terminatorNumber n + (i + 1) ≤ fuel) :
    ∃ s' ps', initBlock fuel txBlocks s i = some s' ∧ Filled txBlocks (i + 1) c s' ps' := by
  have hnew : Addr.block i ∉ descriptors n i := by
    have hnodup := descriptors_nodup n (i + 1)
    rw [descriptors_succ] at hnodup
    exact (Multiset.nodup_cons.mp hnodup).1
  have hadd := h.sound.add (x := fillDescriptor (.block i) blockSize (.data i)) hnew rfl
  rw [← descriptors_succ] at hadd
  have hcard : (descriptors n (i + 1)).card ≤ fuel := by
    rw [card_descriptors]
    exact hfuel
  obtain ⟨mem', heq, hsound, hdata, hframe⟩ := hadd.reclaim hcard (blockQueue n txBlocks i)
  rw [initBlock_eq, Firmware.reclaim, heq]
  refine ⟨_, _, rfl, hsound, fun p => ?_, h.intDesc, h.fwDesc, h.ctx⟩
  -- What was in the queues before stays as it is.
  have hold : ∀ j, (ps j).map (payload mem') =
      (startFrames txBlocks i j).map (List.map some) := by
    intro j
    rw [← h.frames j]
    refine List.map_congr_left fun pk hpk => payload_congr fun a ha => ?_
    have hne : a ≠ .block i := by
      rintro rfl
      exact hadd.member_outside (i := j) hpk ha (List.mem_cons_of_mem _ List.mem_cons_self)
    rw [hframe a (hadd.member_outside hpk ha), Heap.upd_ne _ hne]
  have hfirst : payload (s.mem.upd (.block i) fun _ =>
      fillDescriptor (.block i) blockSize (.data i)) [.block i] = [some ⟨.data i, 0⟩] := by
    rw [payload, List.map_singleton, Heap.upd_self]
    rfl
  rw [startFrames_succ, List.map_append]
  rcases eq_or_ne p (blockQueue n txBlocks i) with rfl | hp
  · rw [Function.update_self, List.map_append, hold, if_pos rfl, List.map_singleton,
      List.map_singleton, hdata, hfirst]
    rfl
  · rw [Function.update_of_ne hp, hold, if_neg hp, List.map_nil, List.append_nil]

theorem filled (txBlocks : Nat) (c : Context n) (mem : Heap Buffer) {blocks : Nat}
    (hfuel : terminatorNumber n + blocks ≤ fuel) :
    ∃ s ps, (List.range blocks).foldlM (initBlock fuel txBlocks)
      { mem := clearTerminators (terminatorNumber n) mem,
        queue := fun p => initQueue (.terminator (terminatorOf p)),
        intDesc := .terminator 9, fwDesc := .terminator 10, ctx := c } = some s ∧
      Filled txBlocks blocks c s ps := by
  induction blocks with
  | zero => exact ⟨_, _, rfl, filled_zero txBlocks c mem⟩
  | succ blocks ih =>
    obtain ⟨s, ps, hrun, hfill⟩ := ih (by omega)
    obtain ⟨s', ps', hstep, hfill'⟩ := hfill.step hfuel
    refine ⟨s', ps', ?_, hfill'⟩
    rw [List.range_succ, List.foldlM_append, hrun, Option.bind_eq_bind, Option.bind_some,
      List.foldlM_cons, hstep]
    rfl

end

/-! ## The state before the first turn -/

section

variable {fuel blocks txBlocks i : Nat} {super : Buffer → Super} {slots : Nat → TxStatus}

/-- The free blocks, and `fw` once all is prepared. -/
def startBoard (n txBlocks i : Nat) (super : Buffer → Super) (slots : Nat → TxStatus) :
    Board n where
  frames := startFrames txBlocks i
  ctx := { startContext super slots with intDescAvailable := true, fwDescAvailable := true }

theorem startBoard_succ : startBoard n txBlocks (i + 1) super slots =
    (startBoard n txBlocks i super slots).put (blockQueue n txBlocks i) [⟨.data i, 0⟩] := by
  have hframes : (startFrames txBlocks (i + 1) : Place n → List Frame) =
      Function.update (startFrames txBlocks i) (blockQueue n txBlocks i)
        (startFrames txBlocks i (blockQueue n txBlocks i) ++ [[⟨.data i, 0⟩]]) := by
    funext p
    rw [startFrames_succ]
    rcases eq_or_ne p (blockQueue n txBlocks i) with rfl | hp
    · rw [Function.update_self, if_pos rfl]
    · rw [Function.update_of_ne hp, if_neg hp, List.append_nil]
  rw [startBoard, hframes]
  rfl

theorem blockQueue_hidden : hidden (blockQueue n txBlocks i) = false := by
  rw [blockQueue]
  split <;> rfl

theorem startBoard_sum_zero {α : Type} (m : Place n → Frame → Multiset α) :
    (startBoard n txBlocks 0 super slots).sum m = 0 := by
  rw [Board.sum, total]
  refine Finset.sum_eq_zero fun p _ => ?_
  cases p <;> rfl

theorem start_stock : stock (startBoard n txBlocks blocks super slots) =
    (Multiset.range blocks).map .data := by
  induction blocks with
  | zero => exact startBoard_sum_zero _
  | succ blocks ih =>
    rw [startBoard_succ, stock_put, ih, Multiset.range_succ, Multiset.map_cons,
      ← Multiset.singleton_add, add_comm]
    rfl

theorem start_inFlight : inFlight (startBoard n txBlocks blocks super slots) = 0 := by
  induction blocks with
  | zero => exact startBoard_sum_zero _
  | succ blocks ih =>
    rw [startBoard_succ, ← ih]
    exact inFlight_set blockQueue_hidden _

theorem start_frame {p : Place n} {f : Frame} (hf : f ∈ startFrames txBlocks blocks p) :
    hidden p = false ∧ ∃ j, f = [⟨.data j, 0⟩] ∧ (j < txBlocks ↔ host p) := by
  cases p with
  | down =>
    obtain ⟨j, hj, rfl⟩ := List.mem_map.mp hf
    have hlt : j < txBlocks := of_decide_eq_true (List.mem_filter.mp hj).2
    exact ⟨rfl, j, rfl, iff_of_true hlt rfl⟩
  | rx =>
    obtain ⟨j, hj, rfl⟩ := List.mem_map.mp hf
    have hge : ¬j < txBlocks := of_decide_eq_true (List.mem_filter.mp hj).2
    exact ⟨rfl, j, rfl, iff_of_false hge Bool.false_ne_true⟩
  | _ => exact absurd hf List.not_mem_nil

theorem start_ok (hsuper : ∀ b, (super b).cab = false ∧ isBackReq (super b).frameControl = false) :
    Ok blocks txBlocks (startBoard n txBlocks blocks super slots) ⟨[], 0, 0⟩ where
  frame := by
    intro p f hf
    obtain ⟨hp, j, rfl, hside⟩ := start_frame hf
    refine plain_of_blocks hp (List.cons_ne_nil _ _) fun y hy => ?_
    rw [List.mem_singleton.mp hy]
    exact ⟨rfl, j, rfl, hside⟩
  whole := by
    rw [start_stock]
    exact (add_zero _).symm
  own := nofun
  ownData := nofun
  ownSuper := fun b _ => hsuper b
  vif := fun b hb => absurd (hb.symm.trans (hsuper b).1) nofun
  counts := by
    have hnone : hostFrames (startBoard n txBlocks blocks super slots) = 0 := by
      rw [hostFrames, start_inFlight]
      rfl
    refine ⟨?_, fun v => ?_, ?_⟩
    · rw [hnone]
      rfl
    · rw [hnone]
      rfl
    · rw [hnone]
      rfl
  tells := ⟨follows_empty txStatusNum slots, ⟨rfl, Nat.zero_le _⟩, rfl⟩

theorem Filled.rel {s : Firmware n} {ps : Place n → List (List Addr)}
    (h : Filled txBlocks blocks (startContext super slots) s ps) :
    Rel (descriptors n blocks) (initKept s) (startBoard n txBlocks blocks super slots) ps [] := by
  have hsound : Sound (descriptors n blocks) s.mem s.queue ps
      ((.terminator 9, []) :: [(.terminator 10, [])]) := h.sound
  have hne : ∀ p, ∀ pk ∈ ps p, ∀ a ∈ pk, a ≠ s.intDesc := by
    rintro p pk hpk a ha rfl
    rw [h.intDesc] at ha
    exact hsound.member_outside (i := p) hpk ha (List.mem_cons_of_mem _ List.mem_cons_self)
  have hmem : (initKept s).mem = s.mem.upd s.intDesc fun d =>
      { d with dataSize := blockSize, dataAddr := some ⟨.rsp, 0⟩ } := rfl
  have hself : (initKept s).mem s.intDesc =
      { s.mem s.intDesc with dataSize := blockSize, dataAddr := some ⟨.rsp, 0⟩ } := by
    rw [hmem, Heap.upd_self]
  have hother : ∀ a ≠ s.intDesc, (initKept s).mem a = s.mem a := fun a ha => by
    rw [hmem, Heap.upd_ne _ ha]
  have hlinks : ∀ a, ((initKept s).mem a).nextAddr = (s.mem a).nextAddr ∧
      ((initKept s).mem a).lastAddr = (s.mem a).lastAddr := by
    intro a
    rcases eq_or_ne a s.intDesc with rfl | ha
    · rw [hself]
      exact ⟨rfl, rfl⟩
    · rw [hother a ha]
      exact ⟨rfl, rfl⟩
  have hheld : held (initKept s) = kept := by
    change [(s.intDesc, [])] ++ [(s.fwDesc, [])] = kept
    rw [h.intDesc, h.fwDesc]
    rfl
  refine ⟨?_, fun p => ?_, fun x hx => absurd hx List.not_mem_nil, ?_, fun _ => ?_,
    fun pk hpk a ha => ?_⟩
  · rw [List.map_nil, List.nil_append, hheld]
    exact h.sound.touch hlinks
  · refine Eq.trans ?_ (h.frames p)
    exact List.map_congr_left fun pk hpk => payload_congr fun a ha =>
      congrArg Desc.dataAddr (hother a (hne p pk hpk a ha))
  · change { s.ctx with intDescAvailable := true, fwDescAvailable := true } = _
    rw [h.ctx]
    rfl
  · exact congrArg Desc.dataAddr hself
  · -- Each packet of the start is one block.
    have hstart : payload s.mem pk ∈
        (startFrames txBlocks blocks (.down : Place n)).map (List.map some) := by
      rw [← h.frames]
      exact List.mem_map_of_mem hpk
    obtain ⟨f, hf, hpayload⟩ := List.mem_map.mp hstart
    obtain ⟨-, j, rfl, -⟩ := start_frame hf
    obtain ⟨b, rfl, -⟩ := List.map_eq_singleton_iff.mp hpayload.symm
    exact absurd ha List.not_mem_nil

theorem start_rel (mem : Heap Buffer) (hfuel : terminatorNumber n + blocks ≤ fuel) :
    ∃ s ps, dmaInitDescriptors fuel blocks txBlocks (powerOn mem super slots) = some s ∧
      Rel (descriptors n blocks) s (startBoard n txBlocks blocks super slots) ps [] := by
  obtain ⟨s, ps, hrun, hfill⟩ := filled txBlocks (startContext super slots) mem hfuel
  refine ⟨initKept s, ps, ?_, hfill.rel⟩
  have hinit : dmaInitDescriptors fuel blocks txBlocks (powerOn mem super slots) =
      (some s).map initKept := by
    rw [← hrun]
    rfl
  exact hinit

end

end DebianKernel.Carl9170
