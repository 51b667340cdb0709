import DebianKernel.Carl9170.Board

/-!
# The accounts of the carl9170 firmware

`Ok blocks txBlocks A l`: every block, and the buffer for answers, is in exactly one frame or with
the firmware; what the host was told about (`l`) and what waits for the radio are together what
came from the host; the counters count what waits.

Result: `Ok.step`.
-/

namespace DebianKernel.Carl9170

open Shares CountedRing Board

variable {n : Nat}

/-! ## What is counted -/

/-- The buffer that the firmware keeps while it keeps the descriptor for answers. -/
def heldStock (c : Context n) : Multiset Buffer := if c.intDescAvailable then {.rsp} else 0

/-- The buffer of the frame of the firmware, while it is on its way. -/
def ownStock (c : Context n) : Multiset Buffer :=
  if c.fwDescAvailable then 0 else (c.fwDescData.toList.map (·.buffer) : List Buffer)

def allStock (blocks : Nat) : Multiset Buffer := (Multiset.range blocks).map .data + {.rsp}

/-- The buffers of all frames. -/
def stock (A : Board n) : Multiset Buffer := A.sum fun _ f => buffers f

def frameKey (c : Context n) (b : Buffer) : BitVec 8 × BitVec 2 :=
  ((c.super b).cookie, (c.super b).queue)

def statusKey (status : TxStatus) : BitVec 8 × BitVec 2 := (status.cookie, status.queue)

/-- A frame that `cab_queue_len[v]` counts. -/
def inCab (c : Context n) (v : Fin n) (b : Buffer) : Bool :=
  (c.super b).cab && (c.super b).vifId.toNat == v

/-- A frame that `queued_bar` counts. -/
def isBar (c : Context n) (b : Buffer) : Bool := isBackReq (c.super b).frameControl

structure Counts (A : Board n) (told : List TxStatus) : Prop where
  taken : (A.ctx.taken : Multiset (BitVec 8 × BitVec 2)) =
    (told.map statusKey : Multiset (BitVec 8 × BitVec 2)) +
      (hostFrames A).map (frameKey A.ctx)
  cab : ∀ v, A.ctx.cabQueueLen v =
    BitVec.ofNat 32 ((hostFrames A).countP fun b => inCab A.ctx v b = true)
  bar : A.ctx.queuedBar = BitVec.ofNat 32 ((hostFrames A).countP fun b => isBar A.ctx b = true)

/-- What the host was told, and what waits in the ring. -/
structure Tells (c : Context n) (l : Log TxStatus) : Prop where
  follows : Follows txStatusNum l c.txStatus
  exact : l.Exact txStatusNum
  sent : c.sent.flatMap TxComp.body = l.puts.take l.taken

structure Ok (blocks txBlocks : Nat) (A : Board n) (l : Log TxStatus) : Prop where
  frame : A.All (FrameOk txBlocks A.ctx)
  whole : stock A + heldStock A.ctx = allStock blocks + ownStock A.ctx
  own : A.ctx.fwDescAvailable = false →
    ∃ b, (b = .ba ∨ b = .cmd) ∧ A.ctx.fwDescData = some ⟨b, 0⟩
  ownData : ∀ x, A.ctx.fwDescData = some x → x.buffer = .ba ∨ x.buffer = .cmd
  ownSuper : ∀ b, b = .ba ∨ b = .cmd → (A.ctx.super b).cab = false ∧ isBar A.ctx b = false
  vif : ∀ b, (A.ctx.super b).cab = true → (A.ctx.super b).vifId.toNat < n
  counts : Counts A l.puts
  tells : Tells A.ctx l

/-! ## Where a buffer is -/

section

variable {A : Board n} {p : Place n} {f : Frame} {rest : List Frame} {x : Pointer} {b : Buffer}

theorem mem_sum {α : Type} {A : Board n} {m : Place n → Frame → Multiset α} {a : α} :
    a ∈ A.sum m ↔ ∃ p, ∃ f ∈ A.frames p, a ∈ m p f := by
  rw [Board.sum, mem_total]
  exact exists_congr fun p => mem_listSum

theorem sum_mono {α : Type} {A : Board n} {m m' : Place n → Frame → Multiset α}
    (h : ∀ p, ∀ f ∈ A.frames p, m p f ≤ m' p f) : A.sum m ≤ A.sum m' :=
  total_mono fun p => listSum_mono (h p)

theorem mem_stock : b ∈ stock A ↔ ∃ p, ∃ f ∈ A.frames p, ∃ y ∈ f, y.buffer = b := by
  rw [stock, mem_sum]
  refine exists_congr fun p => exists_congr fun f => and_congr_right fun _ => ?_
  rw [buffers, Multiset.mem_coe, List.mem_map]

theorem mem_inFlight (hp : hidden p) (hf : x :: f ∈ A.frames p) : x.buffer ∈ inFlight A := by
  rw [inFlight, mem_sum]
  refine ⟨p, x :: f, hf, ?_⟩
  rw [if_pos hp]
  exact List.mem_cons_self

theorem inFlight_le_stock (A : Board n) : inFlight A ≤ stock A := by
  refine sum_mono fun p f _ => ?_
  split
  · cases f with
    | nil => exact le_refl _
    | cons x f => exact Multiset.singleton_le.mpr (Multiset.mem_coe.mpr List.mem_cons_self)
  · exact Multiset.zero_le _

theorem hostFrames_le_stock (A : Board n) : hostFrames A ≤ stock A :=
  (Multiset.filter_le _ _).trans (inFlight_le_stock A)

theorem allStock_nodup (blocks : Nat) : (allStock blocks).Nodup := by
  rw [allStock, Multiset.nodup_add]
  refine ⟨(Multiset.nodup_range blocks).map fun i j h => Buffer.data.inj h,
    Multiset.nodup_singleton _, ?_⟩
  rw [Multiset.disjoint_singleton, Multiset.mem_map]
  rintro ⟨i, -, h⟩
  exact nomatch h

theorem mem_allStock {blocks : Nat} (hb : b ∈ allStock blocks) : ¬(b = .ba ∨ b = .cmd) := by
  rw [allStock, Multiset.mem_add, Multiset.mem_map, Multiset.mem_singleton] at hb
  rcases hb with ⟨i, -, rfl⟩ | rfl
  · exact fun h => h.elim nofun nofun
  · exact fun h => h.elim nofun nofun

end

section

variable {blocks txBlocks : Nat} {A A' : Board n} {l : Log TxStatus} {b : Buffer}
  {told : List TxStatus} {status : TxStatus}

theorem Ok.mem_ownStock (h : Ok blocks txBlocks A l) (hb : b ∈ ownStock A.ctx) :
    A.ctx.fwDescAvailable = false ∧ A.ctx.fwDescData = some ⟨b, 0⟩ ∧ (b = .ba ∨ b = .cmd) := by
  rw [ownStock] at hb
  split at hb
  · exact absurd hb (Multiset.notMem_zero b)
  · next hav =>
    have hfalse := Bool.eq_false_iff.mpr hav
    obtain ⟨b', hb', hdata⟩ := h.own hfalse
    rw [hdata] at hb
    obtain rfl := List.mem_singleton.mp hb
    exact ⟨hfalse, hdata, hb'⟩

theorem Ok.all_nodup (h : Ok blocks txBlocks A l) : (stock A + heldStock A.ctx).Nodup := by
  rw [h.whole, Multiset.nodup_add]
  refine ⟨allStock_nodup blocks, ?_, ?_⟩
  · rw [ownStock]
    split
    · exact Multiset.nodup_zero
    · cases A.ctx.fwDescData with
      | none => exact Multiset.nodup_zero
      | some x => exact Multiset.nodup_singleton _
  · rw [Multiset.disjoint_left]
    intro b hb hown
    exact mem_allStock hb (h.mem_ownStock hown).2.2

theorem Ok.stock_nodup (h : Ok blocks txBlocks A l) : (stock A).Nodup :=
  (Multiset.nodup_add.mp h.all_nodup).1

/-- While the firmware keeps the descriptor for answers, no frame has its buffer. -/
theorem Ok.rsp_free (h : Ok blocks txBlocks A l) (hav : A.ctx.intDescAvailable) :
    Buffer.rsp ∉ stock A := by
  obtain ⟨-, -, hdisjoint⟩ := Multiset.nodup_add.mp h.all_nodup
  rw [heldStock, if_pos hav, Multiset.disjoint_singleton] at hdisjoint
  exact hdisjoint

/-- A buffer of the firmware is on its way only as the one frame of the firmware. -/
theorem Ok.own_only (h : Ok blocks txBlocks A l) (hown : b = .ba ∨ b = .cmd)
    (hb : b ∈ stock A) :
    A.ctx.fwDescAvailable = false ∧ A.ctx.fwDescData = some ⟨b, 0⟩ := by
  have hall : b ∈ allStock blocks + ownStock A.ctx := by
    rw [← h.whole]
    exact Multiset.mem_add.mpr (.inl hb)
  rcases Multiset.mem_add.mp hall with hall | hall
  · exact absurd hown (mem_allStock hall)
  · exact ⟨(h.mem_ownStock hall).1, (h.mem_ownStock hall).2.1⟩

/-! ## The counters -/

theorem Core.keys {c c' : Context n} (h : Core (c.super b) (c'.super b)) :
    frameKey c' b = frameKey c b ∧ (∀ v, inCab c' v b = inCab c v b) ∧ isBar c' b = isBar c b := by
  refine ⟨?_, fun v => ?_, h.backReq⟩
  · rw [frameKey, frameKey, h.cookie, h.queue]
  · rw [inCab, inCab, h.cab, h.vifId]

/-- What is counted of the frames `M`. -/
theorem counted_congr {c c' : Context n} {M : Multiset Buffer}
    (h : ∀ b ∈ M, Core (c.super b) (c'.super b)) :
    M.map (frameKey c') = M.map (frameKey c) ∧
      (∀ v, M.countP (fun b => inCab c' v b = true) = M.countP fun b => inCab c v b = true) ∧
      M.countP (fun b => isBar c' b = true) = M.countP fun b => isBar c b = true := by
  refine ⟨Multiset.map_congr rfl fun b hb => (h b hb).keys.1, fun v => ?_, ?_⟩
  · refine Multiset.countP_congr rfl fun b hb => ?_
    rw [(h b hb).keys.2.1 v]
  · refine Multiset.countP_congr rfl fun b hb => ?_
    rw [(h b hb).keys.2.2]

theorem Counts.congr (h : Counts A told) (hframes : hostFrames A' = hostFrames A)
    (hcore : ∀ b ∈ hostFrames A, Core (A.ctx.super b) (A'.ctx.super b))
    (htaken : A'.ctx.taken = A.ctx.taken) (hcab : A'.ctx.cabQueueLen = A.ctx.cabQueueLen)
    (hbar : A'.ctx.queuedBar = A.ctx.queuedBar) : Counts A' told := by
  obtain ⟨hkeys, hcabs, hbars⟩ := counted_congr hcore
  refine ⟨?_, fun v => ?_, ?_⟩
  · rw [hframes, htaken, hkeys, h.taken]
  · rw [hframes, hcab, hcabs, h.cab]
  · rw [hframes, hbar, hbars, h.bar]

theorem ofNat_countP_cons (q : Buffer → Bool) (M : Multiset Buffer) :
    BitVec.ofNat 32 ((b ::ₘ M).countP fun b => q b = true) =
      BitVec.ofNat 32 (M.countP fun b => q b = true) + if q b then 1#32 else 0#32 := by
  rw [Multiset.countP_cons]
  split
  · exact BitVec.ofNat_add _ _
  · rw [Nat.add_zero, BitVec.add_zero]

/-- A frame comes from the host. -/
theorem Counts.add (h : Counts A told) (hframes : hostFrames A' = b ::ₘ hostFrames A)
    (hcore : ∀ b ∈ hostFrames A, Core (A.ctx.super b) (A'.ctx.super b))
    (htaken : A'.ctx.taken = A.ctx.taken ++ [frameKey A'.ctx b])
    (hcab : ∀ v, A'.ctx.cabQueueLen v =
      A.ctx.cabQueueLen v + if inCab A'.ctx v b then 1#32 else 0#32)
    (hbar : A'.ctx.queuedBar = A.ctx.queuedBar + if isBar A'.ctx b then 1#32 else 0#32) :
    Counts A' told := by
  obtain ⟨hkeys, hcabs, hbars⟩ := counted_congr hcore
  refine ⟨?_, fun v => ?_, ?_⟩
  · rw [hframes, htaken, ← Multiset.coe_add, h.taken, Multiset.map_cons, hkeys, add_assoc,
      ← Multiset.singleton_add, add_comm _ (Multiset.map _ _)]
    rfl
  · rw [hframes, hcab, ofNat_countP_cons, hcabs, h.cab]
  · rw [hframes, hbar, ofNat_countP_cons, hbars, h.bar]

/-- The host is told about a frame. -/
theorem Counts.remove (h : Counts A told) (hframes : hostFrames A = b ::ₘ hostFrames A')
    (hcore : ∀ b ∈ hostFrames A', Core (A.ctx.super b) (A'.ctx.super b))
    (hkey : statusKey status = frameKey A.ctx b) (htaken : A'.ctx.taken = A.ctx.taken)
    (hcab : ∀ v, A'.ctx.cabQueueLen v =
      A.ctx.cabQueueLen v - if inCab A.ctx v b then 1#32 else 0#32)
    (hbar : A'.ctx.queuedBar = A.ctx.queuedBar - if isBar A.ctx b then 1#32 else 0#32) :
    Counts A' (told ++ [status]) := by
  obtain ⟨hkeys, hcabs, hbars⟩ := counted_congr hcore
  refine ⟨?_, fun v => ?_, ?_⟩
  · rw [htaken, h.taken, hframes, Multiset.map_cons, hkeys, List.map_append, List.map_singleton,
      hkey, ← Multiset.coe_add, add_assoc, ← Multiset.singleton_add]
    rfl
  · rw [hcab, h.cab, hframes, ofNat_countP_cons, hcabs, BitVec.add_sub_cancel]
  · rw [hbar, h.bar, hframes, ofNat_countP_cons, hbars, BitVec.add_sub_cancel]

/-- The host is told about a frame at once. -/
theorem Counts.refuse (h : Counts A told) (hframes : hostFrames A' = hostFrames A)
    (hcore : ∀ b ∈ hostFrames A, Core (A.ctx.super b) (A'.ctx.super b))
    (htaken : A'.ctx.taken = A.ctx.taken ++ [statusKey status])
    (hcab : A'.ctx.cabQueueLen = A.ctx.cabQueueLen)
    (hbar : A'.ctx.queuedBar = A.ctx.queuedBar) : Counts A' (told ++ [status]) := by
  obtain ⟨hkeys, hcabs, hbars⟩ := counted_congr hcore
  refine ⟨?_, fun v => ?_, ?_⟩
  · rw [hframes, htaken, ← Multiset.coe_add, h.taken, hkeys, List.map_append, List.map_singleton,
      ← Multiset.coe_add, add_right_comm]
  · rw [hframes, hcab, hcabs, h.cab]
  · rw [hframes, hbar, hbars, h.bar]

end

/-! ## What the host is told -/

theorem Tells.congr {c c' : Context n} {l : Log TxStatus} (h : Tells c l)
    (hring : c'.txStatus = c.txStatus) (hsent : c'.sent = c.sent) : Tells c' l := by
  obtain ⟨hfollows, hexact, hbody⟩ := h
  exact ⟨by rwa [hring], hexact, by rw [hsent, hbody]⟩

theorem Tells.complete {c : Context n} {l : Log TxStatus} (h : Tells c l) (b : Buffer)
    (txs : Bool) : ∃ l' status, Tells (c.wlanTxComplete b txs) l' ∧ l'.puts = l.puts ++ [status] ∧
      statusKey status = frameKey c b := by
  obtain ⟨hfollows, hexact, hbody⟩ := h
  obtain ⟨l', hfollows', hexact', hputs, hout, -⟩ := wlanPutTxStatus_eq
    { cookie := (c.super b).cookie, queue := (c.super b).queue,
      rix := (c.super b).rix.setWidth 2, tries := (c.super b).cnt.setWidth 3, success := txs }
    hfollows hexact
  refine ⟨l', _, ⟨hfollows', hexact', ?_⟩, hputs, rfl⟩
  rw [← hout, ← hbody, Context.wlanTxComplete, List.flatMap_append]

theorem Tells.send {c : Context n} {l : Log TxStatus} (h : Tells c l) :
    ∃ l', Tells c.sendBuffered l' ∧ l'.puts = l.puts := by
  obtain ⟨hfollows, hexact, hbody⟩ := h
  obtain ⟨hfollows', hout, -⟩ := sendTxStatusLoop_eq hfollows hexact hfollows.pending.ge
  refine ⟨_, ⟨hfollows', hexact.skip (Nat.le_refl _), ?_⟩, rfl⟩
  rw [Context.sendBuffered, List.flatMap_append, hbody, wlanSendBufferedTxStatus, hout,
    List.take_append_drop, Log.skip, ← hexact.1, List.take_length]

/-! ## Frames that move -/

section

variable {A : Board n} {p : Place n} {f : Frame} {rest : List Frame} {x : Pointer}

theorem stock_drop (hA : A.frames p = f :: rest) : stock (A.drop p rest) + buffers f = stock A :=
  sum_drop hA

theorem stock_put (A : Board n) (p : Place n) (f : Frame) :
    stock (A.put p f) = stock A + buffers f := sum_put A p f

theorem sum_singles (f : Frame) : (f.map fun x => buffers [x]).sum = buffers f := by
  induction f with
  | nil => rfl
  | cons x f ih =>
    rw [List.map_cons, List.sum_cons, ih]
    rfl

theorem stock_free (A : Board n) (p : Place n) (f : Frame) :
    stock (A.free p f) = stock A + buffers f := by
  rw [stock, sum_free, sum_singles]
  rfl

theorem buffers_hideFrame (f : Frame) : buffers (hideFrame f) = buffers f := by
  cases f <;> rfl

theorem buffers_unhideFrame (f : Frame) : buffers (unhideFrame f) = buffers f := by
  cases f <;> rfl

theorem inFlight_drop (hp : hidden p) (hA : A.frames p = (x :: f) :: rest) :
    inFlight A = x.buffer ::ₘ inFlight (A.drop p rest) := by
  have h := sum_drop (m := fun p f => if hidden p then firstBuffer f else 0) hA
  rw [if_pos hp, add_comm] at h
  exact h.symm

theorem inFlight_put (hp : hidden p) : inFlight (A.put p (x :: f)) = x.buffer ::ₘ inFlight A := by
  have h := sum_put (m := fun p f => if hidden p then firstBuffer f else 0) A p (x :: f)
  rw [if_pos hp, add_comm] at h
  exact h

/-- Frames that do not wait for the radio are not counted. -/
theorem inFlight_set (hp : hidden p = false) (F : List Frame) :
    inFlight (A.set p F) = inFlight A := by
  have hzero : ∀ F : List Frame,
      (F.map fun f => if hidden p then firstBuffer f else 0).sum = 0 := by
    intro F
    refine List.sum_eq_zero fun M hM => ?_
    obtain ⟨f, -, rfl⟩ := List.mem_map.mp hM
    rw [hp]
    exact if_neg Bool.false_ne_true
  have h := sum_set A p F fun p f => if hidden p then firstBuffer f else 0
  rw [hzero, hzero, add_zero, add_zero] at h
  exact h

/-- A frame moves from one place where it waits for the radio to another. -/
theorem inFlight_move {p' : Place n} (hp : hidden p) (hp' : hidden p')
    (hA : A.frames p = (x :: f) :: rest) :
    inFlight ((A.drop p rest).put p' (x :: f)) = inFlight A := by
  rw [inFlight_put hp', inFlight_drop hp hA]

theorem hostFrames_congr {A A' : Board n} (h : inFlight A' = inFlight A) :
    hostFrames A' = hostFrames A := by
  rw [hostFrames, hostFrames, h]

/-- A frame from the host comes to where it waits for the radio. -/
theorem hostFrames_cons {A A' : Board n} {b : Buffer} (hb : b.isData = true)
    (hflight : inFlight A' = b ::ₘ inFlight A) : hostFrames A' = b ::ₘ hostFrames A := by
  rw [hostFrames, hflight,
    Multiset.filter_cons_of_pos (p := fun b : Buffer => b.isData = true) _ hb]
  rfl

theorem hostFrames_own {A A' : Board n} {b : Buffer} (hb : ¬b.isData = true)
    (hflight : inFlight A' = b ::ₘ inFlight A) : hostFrames A' = hostFrames A := by
  rw [hostFrames, hflight,
    Multiset.filter_cons_of_neg (p := fun b : Buffer => b.isData = true) _ hb]
  rfl

end

/-! ## Steps -/

section

variable {blocks txBlocks : Nat} {A A' : Board n} {l : Log TxStatus} {p p' : Place n} {f : Frame}
  {rest : List Frame} {x : Pointer} {b : Buffer} {r : Super}

/-- Frames change places, and nothing else changes. -/
theorem Ok.frames (h : Ok blocks txBlocks A l) (hctx : A'.ctx = A.ctx)
    (hframe : A'.All (FrameOk txBlocks A.ctx)) (hstock : stock A' = stock A)
    (hflight : inFlight A' = inFlight A) : Ok blocks txBlocks A' l where
  frame := by rwa [hctx]
  whole := by rw [hstock, hctx, h.whole]
  own := by rw [hctx]; exact h.own
  ownData := by rw [hctx]; exact h.ownData
  ownSuper := by rw [hctx]; exact h.ownSuper
  vif := by rw [hctx]; exact h.vif
  counts := h.counts.congr (hostFrames_congr hflight) (fun b _ => hctx ▸ Core.refl _)
    (by rw [hctx]) (by rw [hctx]) (by rw [hctx])
  tells := by rw [hctx]; exact h.tells

theorem setSuper_core {c : Context n} (hcore : Core (c.super b) r)
    (hbounds : Bounds (c.super b) → Bounds r) (b' : Buffer) :
    Core (c.super b') ((c.setSuper b r).super b') ∧
      (Bounds (c.super b') → Bounds ((c.setSuper b r).super b')) := by
  change Core (c.super b') (Function.update c.super b r b') ∧
    (Bounds (c.super b') → Bounds (Function.update c.super b r b'))
  rcases eq_or_ne b' b with rfl | hb
  · rw [Function.update_self]
    exact ⟨hcore, hbounds⟩
  · rw [Function.update_of_ne hb]
    exact ⟨Core.refl _, id⟩

theorem isBar_of_core {c c' : Context n} (h : Core (c.super b) (c'.super b)) :
    isBar c' b = isBar c b := h.backReq

/-- The header of a frame is written, and what matters stays. -/
theorem Ok.retouch (h : Ok blocks txBlocks A l) (hcore : Core (A.ctx.super b) r)
    (hbounds : Bounds (A.ctx.super b) → Bounds r) :
    Ok blocks txBlocks { A with ctx := A.ctx.setSuper b r } l where
  frame := fun p f hf => (h.frame p f hf).congr fun _ x _ => setSuper_core hcore hbounds x.buffer
  whole := h.whole
  own := h.own
  ownData := h.ownData
  ownSuper := fun b' hb' => by
    have hkeep := (setSuper_core hcore hbounds b').1
    rw [hkeep.cab, isBar_of_core hkeep]
    exact h.ownSuper b' hb'
  vif := fun b' => by
    have hkeep := (setSuper_core hcore hbounds b').1
    rw [hkeep.cab, hkeep.vifId]
    exact h.vif b'
  counts := h.counts.congr rfl (fun b' _ => (setSuper_core hcore hbounds b').1) rfl rfl rfl
  tells := h.tells.congr rfl rfl

theorem Ok.move (h : Ok blocks txBlocks A l) (hp : hidden p) (hp' : hidden p')
    (hA : A.frames p = (x :: f) :: rest)
    (hqueue : ∀ i, p' = .tx i → (A.ctx.super x.buffer).queue.toNat = i)
    (hcab : ∀ v, p' = .cab v →
      (A.ctx.super x.buffer).cab = true ∧ (A.ctx.super x.buffer).vifId.toNat = v) :
    Ok blocks txBlocks ((A.drop p rest).put p' (x :: f)) l := by
  obtain ⟨hrest, hf⟩ := h.frame.drop hA
  refine h.frames rfl (hrest.put (hf.move hp hp' hqueue hcab (hf.tries hp x rfl))) ?_
    (inFlight_move hp hp' hA)
  rw [stock_put, stock_drop hA]

/-- A frame or its buffers change places where frames do not wait for the radio. -/
theorem Ok.free (h : Ok blocks txBlocks A l) (hp : hidden p = false) (hp' : hidden p' = false)
    (hhost : host (n := n) p' = host p) (hA : A.frames p = f :: rest) (hrsp : f ≠ [⟨.rsp, 0⟩]) :
    Ok blocks txBlocks ((A.drop p rest).free p' f) l := by
  obtain ⟨hrest, hf⟩ := h.frame.drop hA
  refine h.frames rfl (hrest.free fun y hy => ?_) ?_ ?_
  · obtain ⟨hoffset, i, hi, hside⟩ := hf.blocks hp hrsp y hy
    refine FrameOk.plain hp' hoffset (fun z hz => absurd hz List.not_mem_nil) fun z hz => ?_
    rw [List.mem_singleton.mp hz, hhost]
    exact ⟨i, hi, hside⟩
  · rw [stock_free, stock_drop hA]
  · exact (inFlight_set hp' _).trans (inFlight_set hp _)

theorem txQueue_queue {s : Super} {i : Fin 5} (h : (txQueue s : Place n) = .tx i) :
    s.queue.toNat = i := by
  obtain rfl := Place.tx.inj h
  rfl

theorem FrameOk.ne_rsp {c : Context n} (h : FrameOk txBlocks c p f) (hp : p ≠ .up) :
    f ≠ [⟨.rsp, 0⟩] := by
  rintro rfl
  exact hp (h.rsp _ List.mem_cons_self rfl).1

/-- What `wlan_tx` does to the context, for a frame from the host. -/
structure Accepts (c c' : Context n) (b : Buffer) : Prop where
  super : c'.super = Function.update c.super b (c.super b).start
  taken : c'.taken = c.taken ++ [frameKey c b]
  cab : ∀ v, c'.cabQueueLen v = c.cabQueueLen v + if inCab c v b then 1#32 else 0#32
  bar : c'.queuedBar = c.queuedBar + if isBar c b then 1#32 else 0#32
  int : c'.intDescAvailable = c.intDescAvailable
  fw : c'.fwDescAvailable = c.fwDescAvailable
  data : c'.fwDescData = c.fwDescData
  ring : c'.txStatus = c.txStatus
  sent : c'.sent = c.sent

theorem Accepts.core {c c' : Context n} (h : Accepts c c' b) (b' : Buffer) :
    Core (c.super b') (c'.super b') ∧ (Bounds (c.super b') → Bounds (c'.super b')) := by
  rw [h.super]
  exact setSuper_core (core_start _).1 (fun _ => (core_start _).2) b'

theorem Ok.accept {c' : Context n} (h : Ok blocks txBlocks A l)
    (hA : A.frames .down = (x :: f) :: rest) (hc : Accepts A.ctx c' x.buffer) (hp : hidden p)
    (hqueue : ∀ i, p = .tx i → (A.ctx.super x.buffer).queue.toNat = i)
    (hcab : ∀ v, p = .cab v →
      (A.ctx.super x.buffer).cab = true ∧ (A.ctx.super x.buffer).vifId.toNat = v) :
    Ok blocks txBlocks (Board.put { A.drop .down rest with ctx := c' } p (hideFrame (x :: f)))
      l := by
  obtain ⟨hrest, hf⟩ := h.frame.drop hA
  have hkeep := (hc.core x.buffer).1
  have hheld : heldStock c' = heldStock A.ctx := by rw [heldStock, heldStock, hc.int]
  have hown : ownStock c' = ownStock A.ctx := by rw [ownStock, ownStock, hc.fw, hc.data]
  have htries : Bounds (c'.super x.buffer) := by
    rw [hc.super, Function.update_self]
    exact (core_start _).2
  have hrest' : Board.All { A.drop .down rest with ctx := c' } (FrameOk txBlocks c') :=
    fun q g hg => (hrest q g hg).congr fun _ y _ => hc.core y.buffer
  have hdata : x.buffer.isData = true := by
    obtain ⟨-, i, hi, -⟩ := hf.blocks rfl (hf.ne_rsp nofun) x List.mem_cons_self
    rw [hi]
    rfl
  have hframes : hostFrames (Board.put { A.drop .down rest with ctx := c' } p
      (hideFrame (x :: f))) = x.buffer ::ₘ hostFrames A := by
    refine hostFrames_cons hdata ((inFlight_put hp).trans (congrArg (x.buffer ::ₘ ·) ?_))
    exact inFlight_set rfl _
  refine ⟨hrest'.put (hf.hide hp (fun i hi => ?_) (fun v hv => ?_) htries), ?_, ?_,
    fun y hy => h.ownData y (hc.data.symm.trans hy), fun b' hb' => ?_, fun b' hb' => ?_,
    h.counts.add hframes (fun b' _ => (hc.core b').1) ?_ (fun v => ?_) ?_,
    h.tells.congr hc.ring hc.sent⟩
  · rw [hkeep.queue]
    exact hqueue i hi
  · rw [hkeep.cab, hkeep.vifId]
    exact hcab v hv
  · rw [stock_put, buffers_hideFrame]
    change stock (A.drop .down rest) + buffers (x :: f) + heldStock c' = _ + ownStock c'
    rw [stock_drop hA, hheld, hown, h.whole]
  · change c'.fwDescAvailable = false → _
    rw [hc.fw]
    intro hav
    obtain ⟨b', hb', hdata'⟩ := h.own hav
    exact ⟨b', hb', hc.data.trans hdata'⟩
  · have hkeep' := (hc.core b').1
    change (c'.super b').cab = false ∧ isBar c' b' = false
    rw [hkeep'.cab, isBar_of_core hkeep']
    exact h.ownSuper b' hb'
  · have hkeep' := (hc.core b').1
    change (c'.super b').cab = true at hb'
    change (c'.super b').vifId.toNat < n
    rw [hkeep'.cab] at hb'
    rw [hkeep'.vifId]
    exact h.vif b' hb'
  · change c'.taken = A.ctx.taken ++ [frameKey c' x.buffer]
    rw [hc.taken, hkeep.keys.1]
  · change c'.cabQueueLen v = A.ctx.cabQueueLen v + if inCab c' v x.buffer then 1#32 else 0#32
    rw [hc.cab, hkeep.keys.2.1]
  · change c'.queuedBar = A.ctx.queuedBar + if isBar c' x.buffer then 1#32 else 0#32
    rw [hc.bar, hkeep.keys.2.2]

theorem init_eq (c : Context n) (b : Buffer) : c.wlanTxInit b =
    { c.setSuper b (c.super b).start with
      queuedBar := c.queuedBar + if isBar c b then 1#32 else 0#32 } := by
  rcases hbar : isBar c b with _ | _
  · have hback : ¬isBackReq (c.super b).frameControl = true := Bool.eq_false_iff.mp hbar
    rw [Context.wlanTxInit, if_neg hback]
    exact congrArg (fun count => { c.setSuper b (c.super b).start with queuedBar := count })
      (BitVec.add_zero _).symm
  · have hback : isBackReq (c.super b).frameControl = true := hbar
    rw [Context.wlanTxInit, if_pos hback]
    rfl

theorem accepts_init {c : Context n} (hcab : (c.super b).cab = false) :
    Accepts c ((c.take b).wlanTxInit b) b := by
  rw [init_eq]
  refine ⟨rfl, rfl, fun v => ?_, rfl, rfl, rfl, rfl, rfl, rfl⟩
  rw [inCab, hcab, Bool.false_and]
  exact (BitVec.add_zero _).symm

theorem cabIndex_eq {s : Super} {v : Fin n} (h : cabIndex s = some v) : s.vifId.toNat = v := by
  rw [cabIndex] at h
  split at h
  · obtain rfl := Option.some.inj h
    rfl
  · exact nomatch h

theorem inCab_eq {c : Context n} {v w : Fin n} (hcab : (c.super b).cab = true)
    (hv : cabIndex (c.super b) = some v) : inCab c w b = decide (w = v) := by
  rw [inCab, hcab, Bool.true_and, cabIndex_eq hv]
  exact decide_eq_decide.mpr (Fin.val_inj.trans eq_comm)

theorem accepts_addCab {c : Context n} {v : Fin n} (hcab : (c.super b).cab = true)
    (hv : cabIndex (c.super b) = some v) :
    Accepts c (((c.take b).wlanTxInit b).addCab v) b := by
  rw [init_eq]
  refine ⟨rfl, rfl, fun w => ?_, rfl, rfl, rfl, rfl, rfl, rfl⟩
  rw [inCab_eq hcab hv]
  change Function.update c.cabQueueLen v (c.cabQueueLen v + 1) w = _
  rcases eq_or_ne w v with rfl | hw
  · rw [Function.update_self, decide_eq_true rfl]
    rfl
  · rw [Function.update_of_ne hw, decide_eq_false hw]
    exact (BitVec.add_zero _).symm

/-! ## Headers that do not wait for the radio -/

theorem stock_set {F : List Frame}
    (hF : (F.map buffers).sum = ((A.frames p).map buffers).sum) :
    stock (A.set p F) = stock A := by
  have hsum := sum_set A p F fun _ f => buffers f
  rw [hF] at hsum
  exact add_right_cancel hsum

/-- A header of a frame that does not wait for the radio is in no frame that does. -/
theorem Ok.waits_apart (h : Ok blocks txBlocks A l) (hp : hidden p = false)
    (hf : f ∈ A.frames p) (hb : b ∈ buffers f) : b ∉ inFlight A := by
  obtain ⟨pre, post, hA⟩ := List.append_of_mem hf
  have hsum := sum_set A p (pre ++ post) fun _ f => buffers f
  rw [hA, List.map_append, List.map_append, List.map_cons, List.sum_append, List.sum_append,
    List.sum_cons, add_left_comm (pre.map buffers).sum, ← add_assoc] at hsum
  have hstock : stock (A.set p (pre ++ post)) + buffers f = stock A := add_right_cancel hsum
  have hnodup := h.stock_nodup
  rw [← hstock, Multiset.nodup_add] at hnodup
  rw [← inFlight_set hp (pre ++ post)]
  exact fun hmem => Multiset.disjoint_left.mp hnodup.2.2
    (Multiset.mem_of_le (inFlight_le_stock _) hmem) hb

/-- A header is written that is in no frame that waits for the radio. -/
theorem all_elsewhere {c c' : Context n} (h : A.All (FrameOk txBlocks c))
    (hb : b ∉ inFlight A) (hsuper : ∀ b' ≠ b, c'.super b' = c.super b') :
    A.All (FrameOk txBlocks c') := by
  refine fun q g hg => (h q g hg).congr fun hq x hx => ?_
  have hne : x.buffer ≠ b := by
    rintro rfl
    obtain ⟨g', rfl⟩ : ∃ g', g = x :: g' := ⟨g.tail, (List.cons_head?_tail hx).symm⟩
    exact hb (mem_inFlight hq hg)
  rw [hsuper _ hne]
  exact ⟨Core.refl _, id⟩

theorem core_elsewhere {c c' : Context n} {M : Multiset Buffer} (hb : b ∉ M)
    (hsuper : ∀ b' ≠ b, c'.super b' = c.super b') :
    ∀ b' ∈ M, Core (c.super b') (c'.super b') := by
  intro b' hb'
  have hne : b' ≠ b := by
    rintro rfl
    exact hb hb'
  rw [hsuper b' hne]
  exact Core.refl _

theorem mem_hostFrames : b ∈ hostFrames A → b ∈ inFlight A :=
  fun h => Multiset.mem_of_mem_filter h

theorem Ok.write (h : Ok blocks txBlocks A l) (hf : f ∈ A.frames .down) (hx : x ∈ f)
    (hvif : r.cab = true → r.vifId.toNat < n) :
    Ok blocks txBlocks { A with ctx := A.ctx.setSuper x.buffer r } l := by
  have hb : x.buffer ∉ inFlight A := h.waits_apart rfl hf
    (Multiset.mem_coe.mpr (List.mem_map_of_mem hx))
  have hblock := h.frame .down f hf
  obtain ⟨-, i, hi, -⟩ := hblock.blocks rfl (hblock.ne_rsp nofun) x hx
  have hsuper : ∀ b' ≠ x.buffer, (A.ctx.setSuper x.buffer r).super b' = A.ctx.super b' :=
    fun b' hb' => Function.update_of_ne hb' _ _
  refine ⟨all_elsewhere h.frame hb hsuper, h.whole, h.own, h.ownData, fun b' hb' => ?_,
    fun b' hb' => ?_, h.counts.congr rfl (core_elsewhere (fun hmem => hb (mem_hostFrames hmem))
      hsuper) rfl rfl rfl, h.tells.congr rfl rfl⟩
  · have hne : b' ≠ x.buffer := by
      rintro rfl
      rw [hi] at hb'
      exact hb'.elim nofun nofun
    have hkeep := hsuper b' hne
    rw [isBar, hkeep]
    exact h.ownSuper b' hb'
  · rcases eq_or_ne b' x.buffer with rfl | hne
    · have hself : (A.ctx.setSuper x.buffer r).super x.buffer = r := Function.update_self _ _ _
      rw [hself] at hb' ⊢
      exact hvif hb'
    · rw [hsuper b' hne] at hb' ⊢
      exact h.vif b' hb'

/-! ## Packets that are divided anew -/

theorem plain_of_blocks {c : Context n} (hp : hidden p = false) (hf : f ≠ [])
    (hblocks : ∀ y ∈ f, y.offset = 0 ∧ ∃ i, y.buffer = .data i ∧ (i < txBlocks ↔ host p)) :
    FrameOk txBlocks c p f := by
  cases f with
  | nil => exact absurd rfl hf
  | cons x f =>
    exact FrameOk.plain hp (hblocks x List.mem_cons_self).1
      (fun y hy => (hblocks y (List.mem_cons_of_mem x hy)).1) fun y hy => (hblocks y hy).2

theorem Ok.set {F : List Frame} (h : Ok blocks txBlocks A l) (hp : hidden p = false)
    (hF : ∀ f ∈ F, FrameOk txBlocks A.ctx p f)
    (hsum : (F.map buffers).sum = ((A.frames p).map buffers).sum) :
    Ok blocks txBlocks (A.set p F) l :=
  h.frames rfl (h.frame.set hF) (stock_set hsum) (inFlight_set hp F)

theorem Ok.split {pre post : List Frame} (h : Ok blocks txBlocks A l)
    (hA : A.frames .down = pre ++ f :: post) :
    Ok blocks txBlocks (A.set .down (pre ++ f.map (fun x => [x]) ++ post)) l := by
  have hall := h.frame .down
  rw [hA] at hall
  have hf := hall f (List.mem_append_right _ List.mem_cons_self)
  have hblocks := hf.blocks rfl (hf.ne_rsp nofun)
  refine h.set rfl (fun g hg => ?_) ?_
  · rcases List.mem_append.mp hg with hg | hg
    · rcases List.mem_append.mp hg with hg | hg
      · exact hall g (List.mem_append_left _ hg)
      · obtain ⟨x, hx, rfl⟩ := List.mem_map.mp hg
        refine plain_of_blocks rfl (List.cons_ne_nil x []) fun y hy => ?_
        rw [List.mem_singleton.mp hy]
        exact hblocks x hx
    · exact hall g (List.mem_append_right _ (List.mem_cons_of_mem f hg))
  · rw [hA, List.map_append, List.map_append, List.map_append, List.map_cons, List.map_map,
      List.sum_append, List.sum_append, List.sum_append, List.sum_cons, add_assoc]
    exact congrArg (fun M => _ + (M + _)) (sum_singles f)

theorem Ok.group {pre post : List Frame} (h : Ok blocks txBlocks A l)
    (hp : p = .down ∨ p = .rx) (hA : A.frames p = pre ++ f :: [x] :: post) :
    Ok blocks txBlocks (A.set p (pre ++ (f ++ [x]) :: post)) l := by
  have hhidden : hidden p = false := by rcases hp with rfl | rfl <;> rfl
  have hup : p ≠ .up := by rcases hp with rfl | rfl <;> exact nofun
  have hall := h.frame p
  rw [hA] at hall
  have hblocks : ∀ g ∈ f :: [x] :: post, ∀ y ∈ g,
      y.offset = 0 ∧ ∃ i, y.buffer = .data i ∧ (i < txBlocks ↔ host p) := by
    intro g hg
    have hok := hall g (List.mem_append_right _ hg)
    exact hok.blocks hhidden (hok.ne_rsp hup)
  refine h.set hhidden (fun g hg => ?_) ?_
  · rcases List.mem_append.mp hg with hg | hg
    · exact hall g (List.mem_append_left _ hg)
    · rcases List.mem_cons.mp hg with rfl | hg
      · refine plain_of_blocks hhidden (List.concat_ne_nil x f) fun y hy => ?_
        rcases List.mem_append.mp hy with hy | hy
        · exact hblocks f List.mem_cons_self y hy
        · exact hblocks [x] (List.mem_cons_of_mem f List.mem_cons_self) y hy
      · exact hall g (List.mem_append_right _
          (List.mem_cons_of_mem f (List.mem_cons_of_mem [x] hg)))
  · have hjoin : buffers (f ++ [x]) = buffers f + buffers [x] := by
      rw [buffers, List.map_append]
      rfl
    rw [hA, List.map_append, List.map_append, List.map_cons, List.map_cons, List.map_cons,
      List.sum_append, List.sum_append, List.sum_cons, List.sum_cons, List.sum_cons, hjoin,
      add_assoc (buffers f)]

theorem Ok.keep (h : Ok blocks txBlocks A l) (hA : A.frames .rx = f :: rest) :
    Ok blocks txBlocks ((A.drop .rx rest).put .up f) l := by
  obtain ⟨hrest, hf⟩ := h.frame.drop hA
  obtain ⟨x, g, hshape, -⟩ := hf.shape
  have hput : FrameOk txBlocks A.ctx .up f :=
    plain_of_blocks rfl (by rw [hshape]; exact List.cons_ne_nil x g)
      (hf.blocks rfl (hf.ne_rsp nofun))
  refine h.frames rfl (hrest.put hput) ?_ ((inFlight_set rfl _).trans (inFlight_set rfl _))
  rw [stock_put, stock_drop hA]

/-! ## The answers -/

theorem Ok.answered (h : Ok blocks txBlocks A l) (hA : A.frames .up = [⟨.rsp, 0⟩] :: rest) :
    Ok blocks txBlocks
      { A.drop .up rest with ctx := { A.ctx with intDescAvailable := true } } l := by
  have hrsp : Buffer.rsp ∈ stock A := by
    rw [mem_stock]
    exact ⟨.up, _, by rw [hA]; exact List.mem_cons_self, _, List.mem_cons_self, rfl⟩
  have haway : A.ctx.intDescAvailable ≠ true := fun hav => h.rsp_free hav hrsp
  obtain ⟨hrest, -⟩ := h.frame.drop hA
  refine ⟨fun q g hg => (hrest q g hg).congr fun _ _ _ => ⟨Core.refl _, id⟩, ?_, h.own, h.ownData,
    h.ownSuper, h.vif, h.counts.congr (hostFrames_congr (inFlight_set rfl _))
      (fun b _ => Core.refl _) rfl rfl rfl, h.tells.congr rfl rfl⟩
  have hwhole := h.whole
  rw [heldStock, if_neg haway, add_zero, ← stock_drop hA] at hwhole
  exact hwhole

theorem Ok.answer (h : Ok blocks txBlocks A l) (hav : A.ctx.intDescAvailable) :
    Ok blocks txBlocks (Board.put { A with ctx := { A.ctx with intDescAvailable := false } } .up
      [⟨.rsp, 0⟩]) l := by
  have hput : FrameOk txBlocks { A.ctx with intDescAvailable := false } .up [⟨.rsp, 0⟩] := by
    refine ⟨⟨_, [], rfl, rfl, nofun⟩, fun y hy i hi => ?_, fun y hy hown => ?_,
      fun y _ _ => ⟨rfl, rfl⟩, nofun, nofun, nofun⟩
    · rw [List.mem_singleton.mp hy] at hi
      exact nomatch hi
    · rw [List.mem_singleton.mp hy] at hown
      exact hown.elim nofun nofun
  refine ⟨All.put (A := { A with ctx := _ }) (fun q g hg => (h.frame q g hg).congr fun _ _ _ =>
    ⟨Core.refl _, id⟩) hput, ?_, h.own, h.ownData, h.ownSuper, h.vif,
    h.counts.congr (hostFrames_congr (inFlight_set rfl _)) (fun b _ => Core.refl _) rfl rfl rfl,
    h.tells.congr rfl rfl⟩
  have hwhole := h.whole
  rw [heldStock, if_pos hav] at hwhole
  rw [stock_put]
  exact (add_zero _).trans hwhole

/-! ## Frames that the host is told about -/

/-- What `wlan_tx_complete` leaves. -/
structure Completes (c c' : Context n) (b : Buffer) : Prop where
  super : c'.super = Function.update c.super b { c.super b with cookie := 0 }
  int : c'.intDescAvailable = c.intDescAvailable
  fw : c'.fwDescAvailable = c.fwDescAvailable
  data : c'.fwDescData = c.fwDescData

theorem Completes.elsewhere {c c' : Context n} (h : Completes c c' b) :
    ∀ b' ≠ b, c'.super b' = c.super b' := fun b' hb' => by
  rw [h.super, Function.update_of_ne hb']

theorem Completes.flags {c c' : Context n} (h : Completes c c' b) (b' : Buffer) :
    (c'.super b').cab = (c.super b').cab ∧ (c'.super b').vifId = (c.super b').vifId ∧
      isBar c' b' = isBar c b' := by
  rw [isBar, isBar, h.super]
  rcases eq_or_ne b' b with rfl | hb
  · rw [Function.update_self]
    exact ⟨rfl, rfl, rfl⟩
  · rw [Function.update_of_ne hb]
    exact ⟨rfl, rfl, rfl⟩

/-- The buffers of a frame that the host was told about become free. -/
theorem Ok.complete {c' : Context n} {f' : Frame} {l' : Log TxStatus}
    (h : Ok blocks txBlocks A l) (hA : A.frames p = f :: rest) (hb : b ∈ buffers f)
    (hbuffers : buffers f' = buffers f)
    (hblocks : ∀ y ∈ f', y.offset = 0 ∧ ∃ i, y.buffer = .data i ∧ i < txBlocks)
    (hc : Completes A.ctx c' b)
    (hcounts : Counts (Board.free { A.drop p rest with ctx := c' } .down f') l'.puts)
    (htells : Tells c' l') :
    Ok blocks txBlocks (Board.free { A.drop p rest with ctx := c' } .down f') l' := by
  obtain ⟨hrest, -⟩ := h.frame.drop hA
  have hnodup := h.stock_nodup
  rw [← stock_drop hA, Multiset.nodup_add] at hnodup
  have hb' : b ∉ inFlight (A.drop p rest) := fun hmem =>
    Multiset.disjoint_left.mp hnodup.2.2 (Multiset.mem_of_le (inFlight_le_stock _) hmem) hb
  have hkeep := all_elsewhere hrest hb' hc.elsewhere
  refine ⟨All.free (A := { A.drop p rest with ctx := c' }) hkeep fun y hy => ?_, ?_, ?_,
    fun y hy => h.ownData y (hc.data.symm.trans hy), fun b' hown => ?_, fun b' hcab => ?_, hcounts,
    htells⟩
  · obtain ⟨hoffset, i, hi, hlt⟩ := hblocks y hy
    refine plain_of_blocks rfl (List.cons_ne_nil y []) fun z hz => ?_
    rw [List.mem_singleton.mp hz]
    exact ⟨hoffset, i, hi, iff_of_true hlt rfl⟩
  · have hheld : heldStock c' = heldStock A.ctx := by rw [heldStock, heldStock, hc.int]
    have hown : ownStock c' = ownStock A.ctx := by rw [ownStock, ownStock, hc.fw, hc.data]
    rw [stock_free, hbuffers]
    change stock (A.drop p rest) + buffers f + heldStock c' = _ + ownStock c'
    rw [stock_drop hA, hheld, hown, h.whole]
  · change c'.fwDescAvailable = false → _
    rw [hc.fw]
    intro hav
    obtain ⟨b', hown, hdata⟩ := h.own hav
    exact ⟨b', hown, hc.data.trans hdata⟩
  · obtain ⟨hcab, -, hbar⟩ := hc.flags b'
    change (c'.super b').cab = false ∧ isBar c' b' = false
    rw [hcab, hbar]
    exact h.ownSuper b' hown
  · obtain ⟨hsame, hvif, -⟩ := hc.flags b'
    change (c'.super b').cab = true at hcab
    change (c'.super b').vifId.toNat < n
    rw [hsame] at hcab
    rw [hvif]
    exact h.vif b' hcab

theorem Ok.refuse (h : Ok blocks txBlocks A l) (hA : A.frames .down = (x :: f) :: rest) :
    ∃ l', Ok blocks txBlocks (Board.free { A.drop .down rest with
      ctx := (A.ctx.take x.buffer).wlanTxComplete x.buffer false } .down (x :: f)) l' := by
  have htake : Tells (A.ctx.take x.buffer) l := h.tells.congr rfl rfl
  obtain ⟨l', status, htells, hputs, hkey⟩ := htake.complete x.buffer false
  have hmem : x :: f ∈ A.frames .down := by
    rw [hA]
    exact List.mem_cons_self
  have hb : x.buffer ∈ buffers (x :: f) := Multiset.mem_coe.mpr List.mem_cons_self
  have hok := h.frame .down (x :: f) hmem
  refine ⟨l', h.complete hA hb rfl (fun y hy => ?_) ⟨rfl, rfl, rfl, rfl⟩ ?_ htells⟩
  · obtain ⟨hoffset, i, hi, hlt⟩ := hok.blocks rfl (hok.ne_rsp nofun) y hy
    exact ⟨hoffset, i, hi, hlt.mpr rfl⟩
  · rw [hputs]
    refine h.counts.refuse (hostFrames_congr ((inFlight_set rfl _).trans (inFlight_set rfl _)))
      (core_elsewhere (fun hin => h.waits_apart rfl hmem hb (mem_hostFrames hin))
        fun b' hb' => Function.update_of_ne hb' _ _) ?_ rfl rfl
    rw [hkey]
    rfl

/-- `cab_queue_len` without the frame in `b`. -/
def uncounted (c : Context n) (b : Buffer) (v : Fin n) : BitVec 32 :=
  c.cabQueueLen v - if inCab c v b then 1#32 else 0#32

theorem uncount_eq {c c' : Context n} (h : (if (c.super b).cab then
    (cabIndex (c.super b)).map c.subCab else some c) = some c') :
    c' = { c with cabQueueLen := uncounted c b } := by
  rcases hcab : (c.super b).cab with _ | _
  · rw [hcab, if_neg Bool.false_ne_true] at h
    obtain rfl := Option.some.inj h
    have hlen : c.cabQueueLen = uncounted c b := funext fun v => by
      rw [uncounted, inCab, hcab, Bool.false_and]
      exact (BitVec.sub_zero _).symm
    rw [← hlen]
  · rw [hcab, if_pos rfl] at h
    obtain ⟨v, hv, rfl⟩ := Option.map_eq_some_iff.mp h
    have hlen : Function.update c.cabQueueLen v (c.cabQueueLen v - 1) = uncounted c b := by
      funext w
      rw [uncounted, inCab_eq hcab hv]
      rcases eq_or_ne w v with rfl | hw
      · rw [Function.update_self, decide_eq_true rfl]
        rfl
      · rw [Function.update_of_ne hw, decide_eq_false hw]
        exact (BitVec.sub_zero _).symm
    rw [Context.subCab, hlen]

/-- The part of `wlan_tx_status` behind the counter of the frames for the beacon. -/
def finish (c : Context n) (b : Buffer) (success : Bool) : Context n :=
  if isBar c b then
    { c.wlanTxComplete b success with queuedBar := (c.wlanTxComplete b success).queuedBar - 1 }
  else c.wlanTxComplete b success

theorem wlanTxDone_eq (c : Context n) (b : Buffer) (success : Bool) :
    c.wlanTxDone b success = (if (c.super b).cab then (cabIndex (c.super b)).map c.subCab
      else some c).map fun c => finish c b success := by
  rw [Context.wlanTxDone]
  split
  · exact Option.map_eq_bind.symm
  · rfl

theorem done_eq {c c' : Context n} {success : Bool} (h : c.wlanTxDone b success = some c') :
    c' = { Context.wlanTxComplete { c with cabQueueLen := uncounted c b } b success with
      queuedBar := c.queuedBar - if isBar c b then 1#32 else 0#32 } := by
  rw [wlanTxDone_eq] at h
  obtain ⟨c₁, hc₁, rfl⟩ := Option.map_eq_some_iff.mp h
  obtain rfl := uncount_eq hc₁
  rcases hbar : isBar c b with _ | _
  · have hback : ¬isBar { c with cabQueueLen := uncounted c b } b = true :=
      Bool.eq_false_iff.mp hbar
    rw [finish, if_neg hback]
    exact congrArg (fun count => { Context.wlanTxComplete
      { c with cabQueueLen := uncounted c b } b success with queuedBar := count })
      (BitVec.sub_zero _).symm
  · have hback : isBar { c with cabQueueLen := uncounted c b } b = true := hbar
    rw [finish, if_pos hback]
    rfl

/-- What came to a queue of the radio comes back as blocks of the host. -/
theorem Ok.unhide {i : Fin 5} (h : Ok blocks txBlocks A l)
    (hA : A.frames (.tx i) = (x :: f) :: rest) (hother : some (getSuper x) ≠ A.ctx.fwDescData) :
    ∀ y ∈ unhideFrame (x :: f), y.offset = 0 ∧ ∃ j, y.buffer = .data j ∧ j < txBlocks := by
  have hmem : x :: f ∈ A.frames (.tx i) := by
    rw [hA]
    exact List.mem_cons_self
  have hok := h.frame _ _ hmem
  obtain ⟨x', f', heq, hoffset, hothers⟩ := hok.shape
  obtain ⟨rfl, rfl⟩ := List.cons.inj heq
  have hsuper : (getSuper x).offset = 0 := by
    change x.offset - superdescLen = 0
    rw [hoffset]
    rfl
  have hblock : ∀ y ∈ x :: f, ∃ j, y.buffer = .data j ∧ j < txBlocks := by
    intro y hy
    have hstock : y.buffer ∈ stock A := mem_stock.mpr ⟨_, _, hmem, y, hy, rfl⟩
    -- The frame of the firmware is the only one that is stored elsewhere.
    have hown : ¬(y.buffer = .ba ∨ y.buffer = .cmd) := by
      intro hown
      obtain rfl : f = [] := (hok.own y hy hown).2
      obtain rfl := List.mem_singleton.mp hy
      refine hother ((congrArg some ?_).trans (h.own_only hown hstock).2.symm)
      exact congrArg (DataAddr.mk y.buffer) hsuper
    cases hbuf : y.buffer with
    | data j => exact ⟨j, rfl, (hok.data y hy j hbuf).mpr rfl⟩
    | ba => exact absurd (.inl hbuf) hown
    | cmd => exact absurd (.inr hbuf) hown
    | rsp => exact nomatch (hok.rsp y hy hbuf).1
  intro y hy
  rcases List.mem_cons.mp hy with rfl | hy
  · exact ⟨hsuper, hblock x List.mem_cons_self⟩
  · exact ⟨hothers y hy, hblock y (List.mem_cons_of_mem x hy)⟩

theorem Ok.done {i : Fin 5} {success : Bool} {c : Context n} (h : Ok blocks txBlocks A l)
    (hA : A.frames (.tx i) = (x :: f) :: rest) (hother : some (getSuper x) ≠ A.ctx.fwDescData)
    (hc : A.ctx.wlanTxDone x.buffer success = some c) :
    ∃ l', Ok blocks txBlocks (Board.free { A.drop (.tx i) rest with ctx := c } .down
      (unhideFrame (x :: f))) l' := by
  have hb : x.buffer ∈ buffers (x :: f) := Multiset.mem_coe.mpr List.mem_cons_self
  have hblocks := h.unhide hA hother
  have hdata : x.buffer.isData = true := by
    obtain ⟨-, j, hj, -⟩ := hblocks (getSuper x) List.mem_cons_self
    have hbuf : x.buffer = .data j := hj
    rw [hbuf]
    rfl
  have hframes : hostFrames A = x.buffer ::ₘ hostFrames (Board.free
      { A.drop (.tx i) rest with ctx := c } .down (unhideFrame (x :: f))) := by
    refine hostFrames_cons hdata ((inFlight_drop rfl hA).trans (congrArg (x.buffer ::ₘ ·) ?_))
    exact (inFlight_set (A := { A.drop (.tx i) rest with ctx := c }) rfl _).symm
  have hnodup : (x.buffer ::ₘ hostFrames (Board.free { A.drop (.tx i) rest with ctx := c } .down
      (unhideFrame (x :: f)))).Nodup := by
    rw [← hframes]
    exact Multiset.nodup_of_le (hostFrames_le_stock A) h.stock_nodup
  have htells : Tells { A.ctx with cabQueueLen := uncounted A.ctx x.buffer } l :=
    h.tells.congr rfl rfl
  obtain ⟨l', status, htells', hputs, hkey⟩ := htells.complete x.buffer success
  have hdone := done_eq hc
  refine ⟨l', h.complete hA hb (buffers_unhideFrame _) hblocks ?_ ?_ ?_⟩
  · rw [hdone]
    exact ⟨rfl, rfl, rfl, rfl⟩
  · rw [hputs]
    refine h.counts.remove hframes (core_elsewhere (Multiset.nodup_cons.mp hnodup).1
      fun b' hb' => ?_) hkey ?_ (fun v => ?_) ?_
    · change c.super b' = _
      rw [hdone]
      exact Function.update_of_ne hb' _ _
    · change c.taken = _
      rw [hdone]
      rfl
    · change c.cabQueueLen v = _
      rw [hdone]
      rfl
    · change c.queuedBar = _
      rw [hdone]
  · rw [hdone]
    exact htells'.congr rfl rfl

/-! ## The frame of the firmware -/

/-- What `wlan_tx_fw` does to the context. -/
theorem ownInit_eq {c : Context n} (hback : isBackReq r.frameControl = false) :
    Context.wlanTxInit { c.setSuper b r with
      fwDescAvailable := false, fwDescData := some ⟨b, 0⟩ } b =
    { c.setSuper b r.start with fwDescAvailable := false, fwDescData := some ⟨b, 0⟩ } := by
  have hself : (c.setSuper b r).super b = r := Function.update_self _ _ _
  have hbar : isBar { c.setSuper b r with
      fwDescAvailable := false, fwDescData := some ⟨b, 0⟩ } b = false := by
    change isBackReq ((c.setSuper b r).super b).frameControl = false
    rw [hself, hback]
  have hsuper : Function.update (Function.update c.super b r) b ((c.setSuper b r).super b).start =
      Function.update c.super b r.start := by
    rw [Function.update_idem, hself]
  rw [init_eq, hbar, if_neg Bool.false_ne_true, BitVec.add_zero]
  exact congrArg (fun super => ({ c with
    super := super, fwDescAvailable := false, fwDescData := some ⟨b, 0⟩ } : Context n)) hsuper

theorem Ok.ownFrame (h : Ok blocks txBlocks A l) (hav : A.ctx.fwDescAvailable)
    (hown : b = .ba ∨ b = .cmd) (hcab : r.cab = false)
    (hback : isBackReq r.frameControl = false) :
    Ok blocks txBlocks (Board.put { A with ctx := Context.wlanTxInit { A.ctx.setSuper b r with
      fwDescAvailable := false, fwDescData := some ⟨b, 0⟩ } b } (txQueue r)
      (hideFrame [⟨b, 0⟩])) l := by
  have hfree : b ∉ stock A := fun hmem =>
    Bool.false_ne_true ((h.own_only hown hmem).1.symm.trans hav)
  have hdata : ¬b.isData = true := by
    rcases hown with rfl | rfl <;> exact Bool.false_ne_true
  rw [ownInit_eq hback]
  have hself : (A.ctx.setSuper b r.start).super b = r.start := Function.update_self _ _ _
  have helse : ∀ b' ≠ b, (A.ctx.setSuper b r.start).super b' = A.ctx.super b' :=
    fun b' hb' => Function.update_of_ne hb' _ _
  have hflight : b ∉ inFlight A := fun hmem => hfree (Multiset.mem_of_le (inFlight_le_stock A) hmem)
  have hput : FrameOk txBlocks { A.ctx.setSuper b r.start with
      fwDescAvailable := false, fwDescData := some ⟨b, 0⟩ } (txQueue r)
      (hideFrame [⟨b, 0⟩]) := by
    refine ⟨⟨_, [], rfl, rfl, nofun⟩, fun y hy i hi => ?_, fun y hy _ => ⟨rfl, rfl⟩,
      fun y hy hrsp => ?_, fun i hi y hy => ?_, nofun, fun _ y hy => ?_⟩
    · rw [List.mem_singleton.mp hy] at hi
      have hbuf : b = .data i := hi
      exact absurd (congrArg Buffer.isData hbuf) hdata
    · rw [List.mem_singleton.mp hy] at hrsp
      rcases hown with rfl | rfl <;> exact nomatch hrsp
    · obtain rfl := Option.mem_some_iff.mp hy
      change ((A.ctx.setSuper b r.start).super b).queue.toNat = i
      rw [hself]
      exact txQueue_queue hi
    · obtain rfl := Option.mem_some_iff.mp hy
      change Bounds ((A.ctx.setSuper b r.start).super b)
      rw [hself]
      exact (core_start r).2
  refine ⟨All.put (A := { A with ctx := _ }) (all_elsewhere h.frame hflight helse) hput, ?_,
    fun _ => ⟨b, hown, rfl⟩, fun y hy => ?_, fun b' hb' => ?_, fun b' hb' => ?_, ?_,
    h.tells.congr rfl rfl⟩
  · have hwhole := h.whole
    rw [ownStock, if_pos hav, add_zero] at hwhole
    rw [stock_put, buffers_hideFrame, ← hwhole]
    exact add_right_comm _ _ _
  · obtain rfl := Option.some.inj hy
    exact hown
  · change ((A.ctx.setSuper b r.start).super b').cab = false ∧
      isBackReq ((A.ctx.setSuper b r.start).super b').frameControl = false
    rcases eq_or_ne b' b with rfl | hne
    · rw [hself]
      exact ⟨hcab, hback⟩
    · rw [helse b' hne]
      exact h.ownSuper b' hb'
  · change ((A.ctx.setSuper b r.start).super b').cab = true at hb'
    change ((A.ctx.setSuper b r.start).super b').vifId.toNat < n
    rcases eq_or_ne b' b with rfl | hne
    · rw [hself] at hb'
      exact absurd (hb'.symm.trans hcab) nofun
    · rw [helse b' hne] at hb' ⊢
      exact h.vif b' hb'
  · exact h.counts.congr (hostFrames_own hdata (inFlight_put rfl))
      (core_elsewhere (fun hmem => hflight (mem_hostFrames hmem)) helse) rfl rfl rfl

theorem Ok.ownDone {i : Fin 5} (h : Ok blocks txBlocks A l)
    (hA : A.frames (.tx i) = (x :: f) :: rest) (hdata : some (getSuper x) = A.ctx.fwDescData) :
    Ok blocks txBlocks
      { A.drop (.tx i) rest with ctx := { A.ctx with fwDescAvailable := true } } l := by
  have hown : x.buffer = .ba ∨ x.buffer = .cmd := h.ownData (getSuper x) hdata.symm
  have hmem : x :: f ∈ A.frames (.tx i) := by
    rw [hA]
    exact List.mem_cons_self
  obtain ⟨haway, -⟩ := h.own_only hown (mem_stock.mpr ⟨_, _, hmem, x, List.mem_cons_self, rfl⟩)
  obtain ⟨hrest, hf⟩ := h.frame.drop hA
  obtain rfl : f = [] := (hf.own x List.mem_cons_self hown).2
  have hnot : ¬x.buffer.isData = true := by
    rcases hown with hown | hown <;> rw [hown] <;> exact Bool.false_ne_true
  refine ⟨fun q g hg => (hrest q g hg).congr fun _ _ _ => ⟨Core.refl _, id⟩, ?_, nofun, h.ownData,
    h.ownSuper, h.vif, h.counts.congr (hostFrames_own hnot (inFlight_drop rfl hA)).symm
      (fun b _ => Core.refl _) rfl rfl rfl, h.tells.congr rfl rfl⟩
  have hwhole := h.whole
  rw [ownStock, haway, if_neg Bool.false_ne_true, ← hdata, ← stock_drop hA,
    add_right_comm] at hwhole
  exact (add_right_cancel hwhole).trans (add_zero _).symm

theorem Ok.send (h : Ok blocks txBlocks A l) :
    ∃ l', Ok blocks txBlocks { A with ctx := A.ctx.sendBuffered } l' := by
  obtain ⟨l', htells, hputs⟩ := h.tells.send
  refine ⟨l', fun q g hg => (h.frame q g hg).congr fun _ _ _ => ⟨Core.refl _, id⟩, h.whole, h.own,
    h.ownData, h.ownSuper, h.vif, ?_, htells⟩
  rw [hputs]
  exact h.counts.congr rfl (fun b _ => Core.refl _) rfl rfl rfl

end

/-! ## Runs -/

/-- A step keeps the accounts. -/
theorem Ok.step {blocks txBlocks : Nat} {A A' : Board n} {l : Log TxStatus}
    (h : Ok blocks txBlocks A l) (hstep : Board.Step A A') : ∃ l', Ok blocks txBlocks A' l' := by
  cases hstep with
  | idle => exact ⟨l, h⟩
  | refuse hA => exact h.refuse hA
  | accept hA hcab =>
    exact ⟨l, h.accept hA (accepts_init hcab) rfl (fun i hi => txQueue_queue hi) nofun⟩
  | acceptCab hA hcab hv =>
    refine ⟨l, h.accept hA (accepts_addCab hcab hv) rfl nofun fun w hw => ?_⟩
    obtain rfl := Place.cab.inj hw
    exact ⟨hcab, cabIndex_eq hv⟩
  | requeue hA =>
    exact ⟨l, h.free rfl rfl rfl hA ((h.frame.drop hA).2.ne_rsp nofun)⟩
  | split hA => exact ⟨l, h.split hA⟩
  | upload hA hrsp => exact ⟨l, h.free rfl rfl rfl hA hrsp⟩
  | answered hA => exact ⟨l, h.answered hA⟩
  | answer hav => exact ⟨l, h.answer hav⟩
  | keep hA => exact ⟨l, h.keep hA⟩
  | filter hA =>
    exact ⟨l, h.free rfl rfl rfl hA ((h.frame.drop hA).2.ne_rsp nofun)⟩
  | retouch hcore hbounds => exact ⟨l, h.retouch hcore hbounds⟩
  | again hA hcore hbounds =>
    exact ⟨l, (h.retouch hcore hbounds).move rfl rfl hA nofun nofun⟩
  | drain hA => exact ⟨l, h.move rfl rfl hA (fun i hi => txQueue_queue hi) nofun⟩
  | @flush v x f rest r hA hcore hbounds =>
    refine ⟨l, (h.retouch hcore hbounds).move rfl rfl hA (fun i hi => ?_) nofun⟩
    have hself : (A.ctx.setSuper x.buffer r).super x.buffer = r := Function.update_self _ _ _
    change ((A.ctx.setSuper x.buffer r).super x.buffer).queue.toNat = i
    rw [hself]
    exact txQueue_queue hi
  | done hA hother hc => exact h.done hA hother hc
  | own hav hown hcab hback => exact ⟨l, h.ownFrame hav hown hcab hback⟩
  | ownDone hA hdata => exact ⟨l, h.ownDone hA hdata⟩
  | send => exact h.send
  | group hA hp => exact ⟨l, h.group hp hA⟩
  | write hf hy hb hvif =>
    subst hb
    exact ⟨l, h.write hf hy hvif⟩

end DebianKernel.Carl9170
