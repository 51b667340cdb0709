import DebianKernel.Carl9170.Start

/-!
# Runs of the carl9170 firmware

A run begins with `dma_init_descriptors`. In each state of a run the firmware, the hardware and the
host may take turns in any order (`Reachable`).

Results:
1. `run_continues`: nothing that may happen makes the firmware fault or hang.
2. `run_refines`: a run moves frames between places, as `Board.Step` says.
3. `descriptors_once`, `buffers_once`: no descriptor and no buffer is lost or used twice.
4. `told_once`: the host is told about each of its frames once.
5. `counters_count`: `cab_queue_len` and `queued_bar` are what their names say.
6. `frames_placed`: each frame is where its header says, and each buffer on its side.
-/

namespace DebianKernel.Carl9170

open Board CountedRing Shares

variable {n : Nat}

/-- The states of all runs. -/
inductive Reachable (fuel blocks txBlocks : Nat) : Firmware n → Prop
  | start {mem : Heap Buffer} {super : Buffer → Super} {slots : Nat → TxStatus} {s : Firmware n} :
      (∀ b, (super b).cab = false ∧ isBackReq (super b).frameControl = false) →
      dmaInitDescriptors fuel blocks txBlocks (powerOn mem super slots) = some s →
      Reachable fuel blocks txBlocks s
  | step {s s' : Firmware n} {e : Event n} : Reachable fuel blocks txBlocks s → Allowed s e →
      step fuel s e = some s' → Reachable fuel blocks txBlocks s'

/-- The frames of all runs. -/
inductive Board.Run (blocks txBlocks : Nat) : Board n → Prop
  | start (super : Buffer → Super) (slots : Nat → TxStatus) :
      Board.Run blocks txBlocks (startBoard n txBlocks blocks super slots)
  | step {A A' : Board n} : Board.Run blocks txBlocks A → Board.Step A A' →
      Board.Run blocks txBlocks A'

/-! ## A run with a frame of the host -/

def firstSuper : Super :=
  { len := 40, rix := 0, cnt := 0, cookie := 5, queue := 2, vifId := 0, cab := true
    ri := fun _ => ⟨1, 0, false⟩
    rr := fun _ => 0
    phy := 0, erpProt := 0, ampdu := false, frameControl := 0x0084 }

def firstState : Option (Firmware 1) :=
  dmaInitDescriptors 15 3 2 (powerOn (fun d => clearDescriptor d)
    (fun _ => { firstSuper with cab := false, frameControl := 0 }) fun _ => ⟨0, 0, 0, 0, false⟩)

/-- The host stores a frame in the first block, and the firmware takes it. -/
def firstRun : Option (Firmware 1) :=
  firstState.bind fun s => (step 15 s (.write (.data 0) firstSuper)).bind fun s =>
    (step 15 s (.device (.terminator 1) 0 0x300 100 100)).bind fun s => step 15 s .download

theorem firstRun_reachable : ∃ s : Firmware 1, Reachable 15 3 2 s ∧ s.ctx.taken = [(5, 2)] ∧
    s.ctx.cabQueueLen 0 = 1 ∧ s.ctx.queuedBar = 1 := by
  have hstate : firstState.any (fun s => (s.queue .down).head ≠ (s.queue .down).terminator ∧
      (s.mem (s.queue .down).head).dataAddr = some ⟨.data 0, 0⟩) = true := by decide
  have hrun : firstRun.any (fun s => s.ctx.taken = [(5, 2)] ∧ s.ctx.cabQueueLen (0 : Fin 1) = 1 ∧
      s.ctx.queuedBar = 1) = true := by decide
  obtain ⟨s, hs, hend⟩ := (Option.any_eq_true _ _).mp hrun
  obtain ⟨s₀, h₀, hs⟩ := Option.bind_eq_some_iff.mp hs
  obtain ⟨s₁, h₁, hs⟩ := Option.bind_eq_some_iff.mp hs
  obtain ⟨s₂, h₂, h₃⟩ := Option.bind_eq_some_iff.mp hs
  rw [h₀, Option.any_some, decide_eq_true_iff] at hstate
  have hstart : Reachable 15 3 2 s₀ := .start (fun _ => ⟨rfl, rfl⟩) h₀
  have hwrite : Allowed s₀ (.write (.data 0) firstSuper) :=
    ⟨⟨_, _, .head hstate.1, hstate.2, rfl⟩, fun _ => by decide⟩
  have hdevice : Reachable 15 3 2 s₂ := (hstart.step hwrite h₁).step (by trivial) h₂
  exact ⟨s, hdevice.step (by trivial) h₃, of_decide_eq_true hend⟩

/-! ## What holds in every state of a run -/

section

variable {fuel blocks txBlocks : Nat} {s : Firmware n} {e : Event n}

theorem card_descriptors_le (hfuel : terminatorNumber n + blocks ≤ fuel) :
    (descriptors n blocks).card ≤ fuel := by
  rw [card_descriptors]
  exact hfuel

/-- What holds in every state of a run. -/
theorem reachable_inv (hfuel : terminatorNumber n + blocks ≤ fuel)
    (h : Reachable fuel blocks txBlocks s) :
    ∃ A ps l, Rel (descriptors n blocks) s A ps [] ∧ Ok blocks txBlocks A l ∧
      Board.Run blocks txBlocks A := by
  induction h with
  | @start mem super slots s hsuper hinit =>
    obtain ⟨s', ps, hinit', hrel⟩ := start_rel mem hfuel
    obtain rfl := Option.some.inj (hinit.symm.trans hinit')
    exact ⟨_, ps, _, hrel, start_ok hsuper, .start super slots⟩
  | @step s s' e _ hallowed hstep ih =>
    obtain ⟨A, ps, l, hrel, hok, hrun⟩ := ih
    obtain ⟨s'', A', ps', hstep', hboard, hrel'⟩ :=
      hrel.step hok (card_descriptors_le hfuel) hallowed
    obtain rfl := Option.some.inj (hstep.symm.trans hstep')
    obtain ⟨l', hok'⟩ := hok.step hboard
    exact ⟨A', ps', l', hrel', hok', .step hrun hboard⟩

/-- Whatever may happen next, the firmware has a result: it reads no frame where none is, uses no
queue that is not there, and comes to the end of each packet. -/
theorem run_continues (hfuel : terminatorNumber n + blocks ≤ fuel)
    (h : Reachable fuel blocks txBlocks s) (hallowed : Allowed s e) :
    (step fuel s e).isSome := by
  obtain ⟨A, ps, l, hrel, hok, -⟩ := reachable_inv hfuel h
  obtain ⟨s', -, -, hstep, -, -⟩ := hrel.step hok (card_descriptors_le hfuel) hallowed
  rw [hstep]
  rfl

theorem run_continues_first : ∃ s : Firmware 1, Reachable 15 3 2 s ∧
    (step 15 s (.txCompletion 2)).isSome := by
  obtain ⟨s, hs, -⟩ := firstRun_reachable
  exact ⟨s, hs, run_continues (by decide) hs trivial⟩

/-- Each state of a run represents frames that a run of frames comes to. -/
theorem run_refines (hfuel : terminatorNumber n + blocks ≤ fuel)
    (h : Reachable fuel blocks txBlocks s) :
    ∃ A ps, Rel (descriptors n blocks) s A ps [] ∧ Board.Run blocks txBlocks A := by
  obtain ⟨A, ps, -, hrel, -, hrun⟩ := reachable_inv hfuel h
  exact ⟨A, ps, hrel, hrun⟩

theorem run_refines_first : ∃ s : Firmware 1, Reachable 15 3 2 s ∧
    ∃ A ps, Rel (descriptors 1 3) s A ps [] ∧ Board.Run 3 2 A := by
  obtain ⟨s, hs, -⟩ := firstRun_reachable
  exact ⟨s, hs, run_refines (by decide) hs⟩

/-- Each descriptor is in exactly one queue, in one packet or as its terminator, or is one of the
two that the firmware keeps. -/
theorem descriptors_once (hfuel : terminatorNumber n + blocks ≤ fuel)
    (h : Reachable fuel blocks txBlocks s) :
    ∃ ps, (∀ p, Holds s.mem (s.queue p) (ps p)) ∧
      looseAddrs (held s) + total (queueAddrs s.queue ps) = descriptors n blocks := by
  obtain ⟨A, ps, -, hrel, -, -⟩ := reachable_inv hfuel h
  exact ⟨ps, hrel.sound.holds, hrel.sound.whole⟩

theorem descriptors_once_first : ∃ s : Firmware 1, Reachable 15 3 2 s ∧
    ∃ ps, (∀ p, Holds s.mem (s.queue p) (ps p)) ∧
      looseAddrs (held s) + total (queueAddrs s.queue ps) = descriptors 1 3 := by
  obtain ⟨s, hs, -⟩ := firstRun_reachable
  exact ⟨s, hs, descriptors_once (by decide) hs⟩

/-- Each block, and the buffer for answers, is in exactly one frame or with the firmware; the other
buffers of the firmware are in a frame only while its own frame is on its way. -/
theorem buffers_once (hfuel : terminatorNumber n + blocks ≤ fuel)
    (h : Reachable fuel blocks txBlocks s) :
    ∃ A ps, Rel (descriptors n blocks) s A ps [] ∧ (stock A + heldStock s.ctx).Nodup ∧
      stock A + heldStock s.ctx = allStock blocks + ownStock s.ctx := by
  obtain ⟨A, ps, l, hrel, hok, -⟩ := reachable_inv hfuel h
  refine ⟨A, ps, hrel, ?_⟩
  rw [hrel.ctx]
  exact ⟨hok.all_nodup, hok.whole⟩

theorem buffers_once_first : ∃ s : Firmware 1, Reachable 15 3 2 s ∧
    ∃ A ps, Rel (descriptors 1 3) s A ps [] ∧ (stock A + heldStock s.ctx).Nodup ∧
      stock A + heldStock s.ctx = allStock 3 + ownStock s.ctx := by
  obtain ⟨s, hs, -⟩ := firstRun_reachable
  exact ⟨s, hs, buffers_once (by decide) hs⟩

/-- The frames that came from the host are those that it was told about, those it will be told
about with the next states, and those that wait for the radio. -/
theorem told_once (hfuel : terminatorNumber n + blocks ≤ fuel)
    (h : Reachable fuel blocks txBlocks s) :
    ∃ A ps, Rel (descriptors n blocks) s A ps [] ∧
      (s.ctx.taken : Multiset (BitVec 8 × BitVec 2)) =
        ((s.ctx.sent.flatMap TxComp.body).map statusKey : List (BitVec 8 × BitVec 2)) +
        ((s.ctx.txStatus.queued txStatusNum).map statusKey : List (BitVec 8 × BitVec 2)) +
        (hostFrames A).map (frameKey s.ctx) := by
  obtain ⟨A, ps, l, hrel, hok, -⟩ := reachable_inv hfuel h
  refine ⟨A, ps, hrel, ?_⟩
  have htells := hok.tells
  rw [hrel.ctx, hok.counts.taken, htells.sent, htells.follows.queued_eq htells.exact,
    Multiset.coe_add, ← List.map_append, List.take_append_drop]

theorem told_once_first : ∃ s : Firmware 1, Reachable 15 3 2 s ∧ s.ctx.taken = [(5, 2)] ∧
    ∃ A ps, Rel (descriptors 1 3) s A ps [] ∧
      (s.ctx.taken : Multiset (BitVec 8 × BitVec 2)) =
        ((s.ctx.sent.flatMap TxComp.body).map statusKey : List (BitVec 8 × BitVec 2)) +
        ((s.ctx.txStatus.queued txStatusNum).map statusKey : List (BitVec 8 × BitVec 2)) +
        (hostFrames A).map (frameKey s.ctx) := by
  obtain ⟨s, hs, htaken, -⟩ := firstRun_reachable
  exact ⟨s, hs, htaken, told_once (by decide) hs⟩

/-- The counters of the firmware count the frames of the host that wait for the radio. -/
theorem counters_count (hfuel : terminatorNumber n + blocks ≤ fuel)
    (h : Reachable fuel blocks txBlocks s) :
    ∃ A ps, Rel (descriptors n blocks) s A ps [] ∧
      (∀ v, s.ctx.cabQueueLen v =
        BitVec.ofNat 32 ((hostFrames A).countP fun b => inCab s.ctx v b = true)) ∧
      s.ctx.queuedBar =
        BitVec.ofNat 32 ((hostFrames A).countP fun b => isBar s.ctx b = true) := by
  obtain ⟨A, ps, l, hrel, hok, -⟩ := reachable_inv hfuel h
  refine ⟨A, ps, hrel, ?_⟩
  rw [hrel.ctx]
  exact ⟨hok.counts.cab, hok.counts.bar⟩

theorem counters_count_first : ∃ s : Firmware 1, Reachable 15 3 2 s ∧
    (s.ctx.cabQueueLen 0 = 1 ∧ s.ctx.queuedBar = 1) ∧
    ∃ A ps, Rel (descriptors 1 3) s A ps [] ∧
      (∀ v, s.ctx.cabQueueLen v =
        BitVec.ofNat 32 ((hostFrames A).countP fun b => inCab s.ctx v b = true)) ∧
      s.ctx.queuedBar =
        BitVec.ofNat 32 ((hostFrames A).countP fun b => isBar s.ctx b = true) := by
  obtain ⟨s, hs, -, hcounts⟩ := firstRun_reachable
  exact ⟨s, hs, hcounts, counters_count (by decide) hs⟩

/-- Each frame is in the queue that its header names, and its pointer is behind the header while it
waits for the radio, at the header elsewhere; no block of the host comes to the radio's side. -/
theorem frames_placed (hfuel : terminatorNumber n + blocks ≤ fuel)
    (h : Reachable fuel blocks txBlocks s) :
    ∃ A ps, Rel (descriptors n blocks) s A ps [] ∧ A.All (FrameOk txBlocks s.ctx) := by
  obtain ⟨A, ps, l, hrel, hok, -⟩ := reachable_inv hfuel h
  refine ⟨A, ps, hrel, ?_⟩
  rw [hrel.ctx]
  exact hok.frame

theorem frames_placed_first : ∃ s : Firmware 1, Reachable 15 3 2 s ∧
    ∃ A ps, Rel (descriptors 1 3) s A ps [] ∧ A.All (FrameOk 2 s.ctx) := by
  obtain ⟨s, hs, -⟩ := firstRun_reachable
  exact ⟨s, hs, frames_placed (by decide) hs⟩

end

end DebianKernel.Carl9170
