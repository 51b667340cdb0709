import DebianKernel.Carl9170.Ledger

/-!
# The code of the carl9170 firmware moves frames

Each turn of the firmware, on descriptors and links, is a step on lists of frames: a loop comes to
its end, no frame is read where none is, and what the turn leaves in the memory represents the
frames of the step.

Result: `Rel.step`.
-/

namespace DebianKernel.Carl9170

open Board CountedRing Firmware

variable {n : Nat} {U : Multiset Addr} {s s' : Firmware n} {A : Board n}
  {ps : Place n → List (List Addr)} {p : Place n} {d : Addr} {ds : List Addr} {x : Pointer}
  {f : Frame} {rest : List Frame} {fuel blocks txBlocks : Nat} {l : Log TxStatus}

/-- The result of a turn represents the frames after a step. -/
def Simulated (U : Multiset Addr) (A : Board n) (result : Option (Firmware n)) : Prop :=
  ∃ s' A' ps', result = some s' ∧ Board.Step A A' ∧ Rel U s' A' ps' []

theorem Rel.idle (h : Rel U s A ps []) : Simulated U A (some s) :=
  ⟨s, A, ps, rfl, .idle A, h⟩

/-! ## Headers -/

theorem superAt_zero (h : x.offset = 0) : superAt x = some x.buffer := if_pos h

theorem superAt_getSuper (h : x.offset = superdescLen) : superAt (getSuper x) = some x.buffer := by
  refine if_pos ?_
  change x.offset - superdescLen = 0
  rw [h, sub_self]

theorem Rel.hand_data (h : Rel U s A ps [⟨d, ds, x :: f⟩]) : (s.mem d).dataAddr = some x :=
  (List.cons.inj (h.hand _ List.mem_cons_self)).1

theorem Core.trans {r r' r'' : Super} (h : Core r r') (h' : Core r' r'') : Core r r'' :=
  ⟨h'.cookie.trans h.cookie, h'.queue.trans h.queue, h'.cab.trans h.cab, h'.vifId.trans h.vifId,
    h'.backReq.trans h.backReq⟩

/-- A bit that is not in the mask. -/
theorem isBackReq_set {fc m : BitVec 16} (hm : m &&& 0x00fc = 0#16) :
    isBackReq (fc ||| m) = isBackReq fc := by
  have hmask : (fc ||| m) &&& 0x00fc = fc &&& 0x00fc := by
    rw [BitVec.and_or_distrib_right, hm, BitVec.or_zero]
  rw [isBackReq, isBackReq, hmask]

theorem isBackReq_clear {fc m : BitVec 16} (hm : ~~~m &&& 0x00fc = 0x00fc) :
    isBackReq (fc &&& ~~~m) = isBackReq fc := by
  rw [isBackReq, isBackReq, BitVec.and_assoc, hm]

/-- A frame that is tried again is the same frame. -/
theorem consume_core {r r' : Super} (h : wlanTxConsumeRetry r = some r') :
    Core r r' ∧ (Bounds r → Bounds r') := by
  rw [wlanTxConsumeRetry] at h
  split at h
  · split at h
    · cases h
    · next hrix =>
      split at h
      · cases h
      · obtain rfl := Option.some.inj h
        refine ⟨⟨rfl, rfl, rfl, rfl, rfl⟩, fun hb => ⟨?_, Nat.le_refl 1, ?_⟩⟩
        swap
        · exact (by decide : 1 ≤ 7)
        change (r.rix + 1).toNat ≤ txMaxRetryRates
        have hle := hb.1
        rw [txMaxRetryRates] at hle hrix ⊢
        rw [BitVec.toNat_add]
        exact (Nat.mod_le _ _).trans (Nat.lt_of_le_of_ne hle hrix)
  · next hcnt =>
    obtain rfl := Option.some.inj h
    refine ⟨⟨rfl, rfl, rfl, rfl, rfl⟩, fun hb => ⟨hb.1, ?_⟩⟩
    have htries := (r.ri r.rix.toNat).tries.isLt
    change 1 ≤ (r.cnt + 1).toNat ∧ (r.cnt + 1).toNat ≤ txMaxRateTries
    have hlt : r.cnt.toNat + 1 < 2 ^ 8 := by omega
    have hsum : (r.cnt + 1).toNat = r.cnt.toNat + 1 := by
      rw [BitVec.toNat_add]
      exact Nat.mod_eq_of_lt hlt
    rw [hsum, txMaxRateTries]
    omega

/-! ## The heads of the queues -/

theorem Rel.frames_of_head (h : Rel U s A ps []) (hne : (s.queue p).head ≠ (s.queue p).terminator) :
    ∃ f rest, A.frames p = f :: rest := by
  cases hA : A.frames p with
  | cons f rest => exact ⟨f, rest, rfl⟩
  | nil =>
    have hnone := h.unlink_nil hA
    rw [unlinkHead, dmaUnlinkHead, if_neg hne] at hnone
    cases hnone

theorem Rel.frames_of_bits {bits : BitVec 16} (h : Rel U s A ps [])
    (hbits : s.headHasBits p bits = true) : ∃ f rest, A.frames p = f :: rest := by
  rw [headHasBits, Bool.and_eq_true, bne_iff_ne] at hbits
  exact h.frames_of_head hbits.1

theorem Rel.dequeue (h : Rel U s A ps []) (bits : BitVec 16) :
    s.dequeueNotBits p bits = none ∨ ∃ f rest, A.frames p = f :: rest ∧
      ∃ s' d, s.dequeueNotBits p bits = some (s', d) ∧ Unlinked U s s' A p d f rest := by
  have hor : s.dequeueNotBits p bits = none ∨ s.dequeueNotBits p bits = s.unlinkHead p := by
    rw [dequeueNotBits, dmaDequeueNotBits]
    split
    · exact .inr rfl
    · exact .inl rfl
  rcases hor with hnone | hsame
  · exact .inl hnone
  · rw [hsame]
    cases hA : A.frames p with
    | nil => exact .inl (h.unlink_nil hA)
    | cons f rest => exact .inr ⟨f, rest, rfl, h.unlink hA⟩

/-! ## Turns of the firmware -/

theorem Rel.wlanTxAll (h : Rel U s A ps [⟨d, ds, x :: f⟩]) (hx : x.offset = superdescLen)
    (hfuel : U.card ≤ fuel) : ∃ s' ps', s.wlanTxAll fuel d = some s' ∧
      Rel U s' (A.put (txQueue (A.ctx.super x.buffer)) (x :: f)) ps' [] := by
  obtain ⟨s', ps', hput, hrel⟩ := h.put hfuel (p := txQueue (A.ctx.super x.buffer)) nofun
  refine ⟨s', ps', ?_, hrel⟩
  rw [Firmware.wlanTxAll, h.hand_data, Option.bind_eq_bind, Option.bind_some, superAt_getSuper hx,
    Option.bind_eq_bind, Option.bind_some, h.ctx, hput]

theorem init_super (c : Context n) (b : Buffer) :
    (c.wlanTxInit b).super b = (c.super b).start := by
  rw [init_eq]
  exact Function.update_self _ _ _

/-- The frame in hand goes to the queue it names. -/
theorem Rel.wlanTx (h : Rel U s A ps [⟨d, ds, x :: f⟩]) (hx : x.offset = 0)
    (hvif : (A.ctx.super x.buffer).cab = true → (A.ctx.super x.buffer).vifId.toNat < n)
    (hfuel : U.card ≤ fuel) :
    ((A.ctx.super x.buffer).cab = false ∧ ∃ s' ps', s.wlanTx fuel d = some s' ∧
      Rel U s' (Board.put { A with ctx := A.ctx.wlanTxInit x.buffer }
        (txQueue (A.ctx.super x.buffer)) (hideFrame (x :: f))) ps' []) ∨
    ((A.ctx.super x.buffer).cab = true ∧ ∃ v, cabIndex (A.ctx.super x.buffer) = some v ∧
      ∃ s' ps', s.wlanTx fuel d = some s' ∧
        Rel U s' (Board.put { A with ctx := (A.ctx.wlanTxInit x.buffer).addCab v } (.cab v)
          (hideFrame (x :: f))) ps' []) := by
  have hinit : Rel U { s with ctx := A.ctx.wlanTxInit x.buffer }
      { A with ctx := A.ctx.wlanTxInit x.buffer } ps [⟨d, ds, x :: f⟩] :=
    h.setCtx _ (by rw [init_eq, h.ctx]; rfl) (by rw [init_eq, h.ctx]; rfl)
  have hhide : Rel U (Firmware.hideSuper { s with ctx := A.ctx.wlanTxInit x.buffer } d)
      { A with ctx := A.ctx.wlanTxInit x.buffer } ps [⟨d, ds, hideFrame (x :: f)⟩] :=
    hinit.touchHand (fun y => ⟨rfl, rfl⟩) (by rw [h.hand_data]; rfl)
  have hsuper := init_super A.ctx x.buffer
  have hoffset : x.offset + superdescLen = superdescLen := by rw [hx, zero_add]
  have hstart : s.wlanTx fuel d =
      if ((A.ctx.wlanTxInit x.buffer).super x.buffer).cab then
        (cabIndex ((A.ctx.wlanTxInit x.buffer).super x.buffer)).bind fun v =>
          Firmware.put fuel { Firmware.hideSuper { s with ctx := A.ctx.wlanTxInit x.buffer } d with
            ctx := (A.ctx.wlanTxInit x.buffer).addCab v } (.cab v) d
      else Firmware.wlanTxAll fuel
        (Firmware.hideSuper { s with ctx := A.ctx.wlanTxInit x.buffer } d) d := by
    rw [Firmware.wlanTx, h.hand_data, Option.bind_eq_bind, Option.bind_some, superAt_zero hx,
      Option.bind_eq_bind, Option.bind_some, h.ctx]
    rfl
  rw [hstart, hsuper]
  rcases hcab : (A.ctx.super x.buffer).cab with _ | _
  · refine .inl ⟨rfl, ?_⟩
    have hstay : ¬(A.ctx.super x.buffer).start.cab = true := Bool.eq_false_iff.mp hcab
    rw [if_neg hstay]
    obtain ⟨s', ps', htx, hrel⟩ := hhide.wlanTxAll hoffset hfuel
    refine ⟨s', ps', htx, ?_⟩
    have hqueue : (txQueue ((A.ctx.wlanTxInit x.buffer).super x.buffer) : Place n) =
        txQueue (A.ctx.super x.buffer) := by
      rw [hsuper]
      rfl
    rw [← hqueue]
    exact hrel
  · refine .inr ⟨rfl, ?_⟩
    have hlt := hvif hcab
    have hindex : cabIndex (A.ctx.super x.buffer) = some ⟨_, hlt⟩ := dif_pos hlt
    have hstart' : cabIndex (A.ctx.super x.buffer).start = some (⟨_, hlt⟩ : Fin n) := hindex
    have hmore : (A.ctx.super x.buffer).start.cab = true := hcab
    rw [if_pos hmore, hstart', Option.bind_some]
    have hadd := hhide.setCtx ((A.ctx.wlanTxInit x.buffer).addCab ⟨_, hlt⟩) rfl rfl
    obtain ⟨s', ps', hput, hrel⟩ := hadd.put hfuel (p := .cab ⟨_, hlt⟩) nofun
    exact ⟨_, hindex, s', ps', hput, hrel⟩

theorem Rel.download (h : Rel U s A ps []) (hok : Ok blocks txBlocks A l)
    (hfuel : U.card ≤ fuel) : Simulated U A (s.handleDownload fuel) := by
  rw [handleDownload]
  rcases h.dequeue (p := .down) ownBitsHw with hnone | ⟨f, rest, hA, s₁, d, hsome, hunlink⟩
  · rw [hnone]
    exact h.idle
  · rw [hsome]
    obtain ⟨ps₁, ds, hrel⟩ := hunlink.rel
    obtain ⟨x, g, rfl, hoffset, -⟩ := (hok.frame.drop hA).2.shape
    have hctx : s₁.ctx = A.ctx := hrel.ctx
    have htake := hrel.setCtx (A.ctx.take x.buffer) (by rw [hctx]; rfl) (by rw [hctx]; rfl)
    simp only [Option.bind_eq_bind, hrel.hand_data, superAt_zero hoffset, Option.bind_some, hctx]
    split
    · have hdone := htake.setCtx ((A.ctx.take x.buffer).wlanTxComplete x.buffer false) rfl rfl
      obtain ⟨s', ps', hreclaim, hrel'⟩ := hdone.reclaim hfuel .down
      exact ⟨s', _, ps', hreclaim, .refuse hA, hrel'⟩
    · rcases htake.wlanTx hoffset (hok.vif x.buffer) hfuel with
        ⟨hcab, s', ps', htx, hrel'⟩ | ⟨hcab, v, hv, s', ps', htx, hrel'⟩
      · exact ⟨s', _, ps', htx, .accept hA hcab, hrel'⟩
      · exact ⟨s', _, ps', htx, .acceptCab hA hcab hv, hrel'⟩

theorem Rel.upload (h : Rel U s A ps []) (hok : Ok blocks txBlocks A l)
    (hfuel : U.card ≤ fuel) : Simulated U A (s.handleUpload fuel) := by
  rw [handleUpload]
  rcases h.dequeue (p := .up) ownBitsHw with hnone | ⟨f, rest, hA, s₁, d, hsome, hunlink⟩
  · rw [hnone]
    exact h.idle
  · rw [hsome]
    obtain ⟨ps₁, ds, hrel⟩ := hunlink.rel
    have hframe := (hok.frame.drop hA).2
    obtain ⟨x, g, rfl, -, -⟩ := hframe.shape
    have hctx : s₁.ctx = A.ctx := hrel.ctx
    dsimp only
    rw [hrel.hand_data]
    split
    · next hx =>
      obtain rfl := Option.some.inj hx
      obtain rfl : g = [] := (hframe.rsp _ List.mem_cons_self rfl).2
      have hmem : Buffer.rsp ∈ stock A :=
        mem_stock.mpr ⟨.up, _, by rw [hA]; exact List.mem_cons_self, _, List.mem_cons_self, rfl⟩
      have haway : s₁.ctx.intDescAvailable = false := by
        rw [hctx]
        exact Bool.eq_false_iff.mpr fun hav => hok.rsp_free hav hmem
      have hhold := hrel.holdInt haway
      rw [hctx] at hhold ⊢
      exact ⟨_, _, ps₁, rfl, .answered hA, hhold⟩
    · next hx =>
      obtain ⟨s', ps', hreclaim, hrel'⟩ := hrel.reclaim hfuel .rx
      refine ⟨s', _, ps', hreclaim, .upload hA ?_, hrel'⟩
      rintro heq
      exact hx (congrArg some (List.cons.inj heq).1)

theorem Rel.downloadException (h : Rel U s A ps []) (target : Addr) (hfuel : U.card ≤ fuel) :
    Simulated U A (s.handleDownloadException fuel target) := by
  rw [handleDownloadException]
  split
  · next hbits =>
    split
    · exact h.idle
    · obtain ⟨f, rest, hA⟩ := h.frames_of_bits hbits
      obtain ⟨s₁, d, hsome, hunlink⟩ := h.unlink hA
      obtain ⟨ps₁, ds, hrel⟩ := hunlink.rel
      obtain ⟨s', ps', hreclaim, hrel'⟩ := hrel.reclaim hfuel .down
      rw [hsome, Option.bind_eq_bind, Option.bind_some]
      exact ⟨s', _, ps', hreclaim, .requeue hA, hrel'⟩
  · exact h.idle

theorem Rel.fixDownqueue (h : Rel U s A ps []) (hv : Visited s.mem (s.queue .down) d) :
    Simulated U A (some (s.fixDownqueue d)) := by
  rw [Firmware.fixDownqueue]
  split
  · obtain ⟨preF, f, postF, ps', hA, hrel⟩ := h.split hv (g := fun y =>
      { y with status := ownBitsHw, ctrl := 0, dataSize := 0, totalLen := blockSize,
               lastAddr := d }) (fun _ => ⟨rfl, rfl⟩) fun _ => rfl
    exact ⟨_, _, ps', rfl, .split hA, hrel⟩
  · exact h.idle

theorem Rel.rx (h : Rel U s A ps []) (keep : Bool) (hfuel : U.card ≤ fuel) :
    Simulated U A (s.handleRx fuel keep) := by
  rw [handleRx]
  rcases h.dequeue (p := .rx) ownBitsHw with hnone | ⟨f, rest, hA, s₁, d, hsome, hunlink⟩
  · rw [hnone]
    exact h.idle
  · rw [hsome]
    obtain ⟨ps₁, ds, hrel⟩ := hunlink.rel
    cases keep with
    | true =>
      obtain ⟨s', ps', hput, hrel'⟩ := hrel.put hfuel (p := .up) nofun
      exact ⟨s', _, ps', hput, .keep hA, hrel'⟩
    | false =>
      obtain ⟨s', ps', hreclaim, hrel'⟩ := hrel.reclaim hfuel .rx
      exact ⟨s', _, ps', hreclaim, .filter hA, hrel'⟩

theorem exists_done {c : Context n} {b : Buffer} (success : Bool)
    (hvif : (c.super b).cab = true → (c.super b).vifId.toNat < n) :
    ∃ c', c.wlanTxDone b success = some c' := by
  rw [wlanTxDone_eq]
  split
  · next hcab =>
    have hindex : cabIndex (c.super b) = some (⟨_, hvif hcab⟩ : Fin n) := dif_pos (hvif hcab)
    rw [hindex]
    exact ⟨_, rfl⟩
  · exact ⟨_, rfl⟩

/-- The frame at the head of a queue of the radio is not tried again. -/
theorem Rel.txEnd {i : Fin 5} (h : Rel U s A ps []) (hok : Ok blocks txBlocks A l)
    (hA : A.frames (.tx i) = f :: rest) (success : Bool) (hfuel : U.card ≤ fuel) :
    Simulated U A (s.wlanTxEnd fuel i success) := by
  obtain ⟨s₁, d, hsome, hunlink⟩ := h.unlink hA
  obtain ⟨ps₁, ds, hrel⟩ := hunlink.rel
  have hframe := (hok.frame.drop hA).2
  obtain ⟨x, g, rfl, hoffset, -⟩ := hframe.shape
  have hctx : s₁.ctx = A.ctx := hrel.ctx
  have hunhide : Rel U (s₁.unhideSuper d) (A.drop (.tx i) rest) ps₁
      [⟨d, ds, unhideFrame (x :: g)⟩] :=
    hrel.touchHand (fun y => ⟨rfl, rfl⟩) (by rw [hrel.hand_data]; rfl)
  have hsuper : (getSuper x).offset = 0 := by
    change x.offset - superdescLen = 0
    rw [hoffset]
    rfl
  have hctx' : (s₁.unhideSuper d).ctx = A.ctx := hctx
  simp only [wlanTxEnd, hsome, Option.bind_eq_bind, Option.bind_some, hunhide.hand_data,
    superAt_zero hsuper, hctx']
  split
  · next hdata =>
    have hown : x.buffer = .ba ∨ x.buffer = .cmd := hok.ownData (getSuper x) hdata.symm
    have hmem : x.buffer ∈ stock A :=
      mem_stock.mpr ⟨_, _, by rw [hA]; exact List.mem_cons_self, x, List.mem_cons_self, rfl⟩
    obtain rfl : g = [] := (hframe.own x List.mem_cons_self hown).2
    have hhold := hunhide.holdFw (by rw [hctx']; exact (hok.own_only hown hmem).1)
    rw [hctx'] at hhold
    exact ⟨_, _, ps₁, rfl, .ownDone hA hdata, hhold⟩
  · next hdata =>
    obtain ⟨c, hc⟩ := exists_done (b := x.buffer) success (hok.vif x.buffer)
    have hbuffer : (getSuper x).buffer = x.buffer := rfl
    have hdone := done_eq hc
    have hset := hunhide.setCtx c (by rw [hctx', hdone]; rfl) (by rw [hctx', hdone]; rfl)
    obtain ⟨s', ps', hreclaim, hrel'⟩ := hset.reclaim hfuel .down
    rw [hbuffer, hc, Option.bind_some]
    exact ⟨s', _, ps', hreclaim, .done hA hdata hc, hrel'⟩

theorem Rel.txStatus {i : Fin 5} (h : Rel U s A ps []) (hok : Ok blocks txBlocks A l)
    (hA : A.frames (.tx i) = f :: rest) (hfuel : U.card ≤ fuel) :
    Simulated U A (s.wlanTxStatus fuel i) := by
  obtain ⟨ds, -, -, hpk, -, -⟩ := h.head_packet hA
  obtain ⟨x, g, rfl, hoffset, -⟩ := (hok.frame.drop hA).2.shape
  have hdata : (s.mem (s.queue (.tx i)).head).dataAddr = some x := (List.cons.inj hpk).1
  have hctx : s.ctx = A.ctx := h.ctx
  simp only [wlanTxStatus, hdata, Option.bind_eq_bind, Option.bind_some, superAt_getSuper hoffset]
  split
  · have htouch := h.touchOne (s.queue (.tx i)).head (g := fun y =>
      { y with ctrl := y.ctrl &&& ~~~ctrlFail }) fun _ => ⟨rfl, rfl, rfl⟩
    split
    · next r hretry =>
      obtain ⟨hcore, hbounds⟩ := consume_core hretry
      generalize hr' : (if (!r.ampdu) = true then
        { r with frameControl := r.frameControl ||| fctlRetry } else r) = r'
      have hsame : Core r r' ∧ (Bounds r → Bounds r') := by
        rw [← hr']
        split
        · exact ⟨⟨rfl, rfl, rfl, rfl, isBackReq_set rfl⟩, id⟩
        · exact ⟨Core.refl r, id⟩
      rw [hctx] at hcore hbounds
      have hcore' := hcore.trans hsame.1
      have hbounds' := fun hb => hsame.2 (hbounds hb)
      have hset := htouch.setCtx (A.ctx.setSuper x.buffer r') (by rw [hctx]; rfl)
        (by rw [hctx]; rfl)
      rw [hctx]
      split
      · exact ⟨_, _, ps, rfl, .retouch hcore' hbounds', hset.touchOne _ fun _ => ⟨rfl, rfl, rfl⟩⟩
      · obtain ⟨s₁, d, hsome, hunlink⟩ := hset.unlink (p := .tx i) hA
        obtain ⟨ps₁, ds₁, hrel⟩ := hunlink.rel
        obtain ⟨s', ps', hput, hrel'⟩ := hrel.put hfuel (p := .retry) nofun
        have hhead : d = (s.queue (.tx i)).head := hunlink.head
        rw [hsome, Option.bind_some, ← hhead]
        exact ⟨s', _, ps', hput, .again hA hcore' hbounds', hrel'⟩
    · exact htouch.txEnd hok hA false hfuel
  · exact h.txEnd hok hA true hfuel

theorem Rel.txRetry (h : Rel U s A ps []) (hok : Ok blocks txBlocks A l)
    (hfuel : U.card ≤ fuel) : Simulated U A (s.handleTxRetry fuel) := by
  rw [handleTxRetry]
  cases hA : A.frames .retry with
  | nil =>
    rw [h.unlink_nil hA]
    exact h.idle
  | cons f rest =>
    obtain ⟨s₁, d, hsome, hunlink⟩ := h.unlink hA
    obtain ⟨ps₁, ds, hrel⟩ := hunlink.rel
    obtain ⟨x, g, rfl, hoffset, -⟩ := (hok.frame.drop hA).2.shape
    rw [hsome]
    obtain ⟨s', ps', htx, hrel'⟩ := hrel.wlanTxAll hoffset hfuel
    exact ⟨s', _, ps', htx, .drain hA, hrel'⟩

theorem Rel.cabFlush (h : Rel U s A ps []) (hok : Ok blocks txBlocks A l) (v : Fin n)
    (hfuel : U.card ≤ fuel) : Simulated U A (s.wlanCabFlushQueue fuel v) := by
  rw [wlanCabFlushQueue]
  cases hA : A.frames (.cab v) with
  | nil =>
    rw [h.unlink_nil hA]
    exact h.idle
  | cons f rest =>
    obtain ⟨s₁, d, hsome, hunlink⟩ := h.unlink hA
    obtain ⟨ps₁, ds, hrel⟩ := hunlink.rel
    obtain ⟨x, g, rfl, hoffset, -⟩ := (hok.frame.drop hA).2.shape
    have hctx : s₁.ctx = A.ctx := hrel.ctx
    rw [hsome]
    simp only [hrel.hand_data, Option.bind_eq_bind, Option.bind_some, superAt_getSuper hoffset,
      hctx]
    generalize hr : (if (s₁.queue (.cab v)).head ≠ (s₁.queue (.cab v)).terminator then
      { A.ctx.super x.buffer with
        frameControl := (A.ctx.super x.buffer).frameControl ||| fctlMoredata }
      else { A.ctx.super x.buffer with
        frameControl := (A.ctx.super x.buffer).frameControl &&& ~~~fctlMoredata }) = r
    have hsame : Core (A.ctx.super x.buffer) r ∧ (Bounds (A.ctx.super x.buffer) → Bounds r) := by
      rw [← hr]
      split
      · exact ⟨⟨rfl, rfl, rfl, rfl, isBackReq_set rfl⟩, id⟩
      · exact ⟨⟨rfl, rfl, rfl, rfl, isBackReq_clear rfl⟩, id⟩
    have hset := hrel.setCtx (A.ctx.setSuper x.buffer r) (by rw [hctx]; rfl) (by rw [hctx]; rfl)
    obtain ⟨s', ps', htx, hrel'⟩ := hset.wlanTxAll hoffset hfuel
    have hself : (A.ctx.setSuper x.buffer r).super x.buffer = r := Function.update_self _ _ _
    dsimp only at hrel'
    rw [hself] at hrel'
    exact ⟨s', _, ps', htx, .flush hA hsame.1 hsame.2, hrel'⟩

theorem Rel.statusIn (h : Rel U s A ps []) (tlen : BitVec 16) (hfuel : U.card ≤ fuel) :
    Simulated U A (s.statusIn fuel tlen) := by
  rw [Firmware.statusIn]
  split
  · next hav =>
    split
    · exact h.idle
    · have htake := (h.takeInt hav).touchOne s.intDesc (g := fun y =>
        { y with ctrl := ctrlLsFsBits, totalLen := tlen, dataSize := tlen })
        fun _ => ⟨rfl, rfl, rfl⟩
      obtain ⟨s', ps', hput, hrel⟩ := htake.put hfuel (p := .up) nofun
      have hctx : s.ctx = A.ctx := h.ctx
      rw [hctx] at hrel hav
      exact ⟨s', _, ps', hput, .answer hav, hrel⟩
  · exact h.idle

theorem Rel.txFw (h : Rel U s A ps []) {b : Buffer} {r : Super}
    (hallowed : Allowed s (.txFw b r)) (hfuel : U.card ≤ fuel) :
    Simulated U A (s.wlanTxFw fuel b r) := by
  obtain ⟨hown, hcab, hback⟩ := hallowed
  rw [wlanTxFw]
  split
  · next hav =>
    have hctx : s.ctx = A.ctx := h.ctx
    have htake := h.takeFw (y := ⟨b, 0⟩) (x :=
      { status := ownBitsSw, ctrl := ctrlLsFsBits, dataSize := r.len, totalLen := r.len,
        lastAddr := s.fwDesc, dataAddr := some ⟨b, 0⟩, nextAddr := s.fwDesc }) hav
      { s.ctx.setSuper b r with fwDescAvailable := false, fwDescData := some ⟨b, 0⟩ } rfl rfl rfl
      rfl
    have hself : (s.ctx.setSuper b r).super b = r := Function.update_self _ _ _
    have hplain : ((s.ctx.setSuper b r).super b).cab ≠ true := by
      rw [hself, hcab]
      exact Bool.false_ne_true
    rcases htake.wlanTx rfl (fun hyes => absurd hyes hplain) hfuel with
      ⟨-, s', ps', htx, hrel⟩ | ⟨hyes, -⟩
    · change Rel U s' (Board.put _ (txQueue ((s.ctx.setSuper b r).super b)) _) ps' [] at hrel
      rw [hself, hctx] at hrel
      rw [hctx] at hav
      exact ⟨s', _, ps', htx, .own hav hown hcab hback, hrel⟩
    · exact absurd hyes hplain
  · exact h.idle

theorem Rel.macReset {i : Fin 5} (h : Rel U s A ps []) (hok : Ok blocks txBlocks A l)
    (hv : Visited s.mem (s.queue (.tx i)) d) : Simulated U A (s.macResetKill d) := by
  obtain ⟨-, ds, -, preF, f, postF, -, hA, -, hf, -⟩ := h.visited hv
  have hmem : f ∈ A.frames (.tx i) := by
    rw [hA]
    exact List.mem_append_right _ List.mem_cons_self
  obtain ⟨x, g, rfl, hoffset, -⟩ := (hok.frame _ f hmem).shape
  have hdata : (s.mem d).dataAddr = some x := (List.cons.inj hf).1
  have hctx : s.ctx = A.ctx := h.ctx
  have htouch := h.touchOne d (g := fun y =>
    { y with status := ownBitsSw, ctrl := (y.ctrl &&& ~~~ctrlFail) ||| ctrlBafail })
    fun _ => ⟨rfl, rfl, rfl⟩
  simp only [macResetKill, hdata, Option.bind_eq_bind, Option.bind_some, superAt_getSuper hoffset,
    hctx]
  have hcore : Core (A.ctx.super x.buffer) { A.ctx.super x.buffer with
      cnt := BitVec.ofNat 8 txMaxRateTries, rix := BitVec.ofNat 8 txMaxRetryRates } :=
    ⟨rfl, rfl, rfl, rfl, rfl⟩
  refine ⟨_, _, ps, rfl, .retouch hcore fun _ => ?_,
    htouch.setCtx (A.ctx.setSuper x.buffer _) (by rw [hctx]; rfl) (by rw [hctx]; rfl)⟩
  exact ⟨Nat.le_refl 3, (by decide : 1 ≤ 7), Nat.le_refl 7⟩

theorem Rel.write (h : Rel U s A ps []) {b : Buffer} {r : Super}
    (hallowed : Allowed s (.write b r)) :
    Simulated U A (some { s with ctx := s.ctx.setSuper b r }) := by
  obtain ⟨⟨d, y, hv, hy, rfl⟩, hvif⟩ := hallowed
  obtain ⟨-, ds, -, preF, f, postF, -, hA, -, hf, -⟩ := h.visited hv
  have hctx : s.ctx = A.ctx := h.ctx
  obtain ⟨x, g, rfl, hx, -⟩ := List.map_eq_cons_iff.mp hf.symm
  obtain rfl := Option.some.inj (hx.trans hy)
  have hmem : x :: g ∈ A.frames .down := by
    rw [hA]
    exact List.mem_append_right _ List.mem_cons_self
  have hset := h.setCtx (s.ctx.setSuper x.buffer r) rfl rfl
  rw [hctx] at hset ⊢
  exact ⟨_, _, ps, rfl, .write hmem List.mem_cons_self rfl hvif, hset⟩

/-- Every event that the callers, the hardware and the host may cause has a result, and is a step
on frames. -/
theorem Rel.step {e : Event n} (h : Rel U s A ps []) (hok : Ok blocks txBlocks A l)
    (hfuel : U.card ≤ fuel) (hallowed : Allowed s e) : Simulated U A (step fuel s e) := by
  cases e with
  | download => exact h.download hok hfuel
  | upload => exact h.upload hok hfuel
  | downloadException target => exact h.downloadException target hfuel
  | fixDownqueue desc => exact h.fixDownqueue hallowed
  | rx keep => exact h.rx keep hfuel
  | txCompletion i =>
    change Simulated U A (s.handleTxCompletion fuel i)
    rw [handleTxCompletion]
    split
    · next hbits =>
      obtain ⟨f, rest, hA⟩ := h.frames_of_bits hbits
      exact h.txStatus hok hA hfuel
    · exact h.idle
  | txRetry => exact h.txRetry hok hfuel
  | cabFlush v => exact h.cabFlush hok v hfuel
  | statusIn tlen => exact h.statusIn tlen hfuel
  | txFw b r => exact h.txFw hallowed hfuel
  | sendTxStatus =>
    have hset := h.setCtx s.ctx.sendBuffered rfl rfl
    have hctx : s.ctx = A.ctx := h.ctx
    rw [hctx] at hset
    refine ⟨_, _, ps, ?_, .send A, hset⟩
    rw [← hctx]
    rfl
  | macReset i desc => exact h.macReset hok hallowed
  | device a status ctrl dataSize totalLen =>
    exact ⟨_, A, ps, rfl, .idle A, h.touchOne a fun _ => ⟨rfl, rfl, rfl⟩⟩
  | group p desc =>
    obtain ⟨hp, hv, hmore, hsingle⟩ := hallowed
    obtain ⟨preF, f, x, postF, ps', hA, hrel⟩ := h.group hv hmore hsingle
    exact ⟨_, _, ps', rfl, .group hA hp, hrel⟩
  | write b r => exact h.write hallowed

end DebianKernel.Carl9170
