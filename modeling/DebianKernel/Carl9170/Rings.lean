import DebianKernel.Lib.Ring
import Mathlib.Data.List.Flatten

/-!
# The rings of the carl9170 firmware

Three rings with a head, a tail and a counter: the states of sent frames that wait for the host
(`wlan.c`), the answers and traps that wait for the interrupt endpoint (`usb/main.c`), and the
block ack requests that wait for the one descriptor of the firmware (`wlan.c`).

Results:
1. `txRun_eq`: every state of a sent frame comes to the host once and in order.
2. `intRun_eq`: so does every answer, with consecutive numbers, while no more than 16 wait.
3. `statusIn_fits`: an answer block never runs over its buffer, and nothing waits for ever.
4. `baRun_eq`, `ba_after_loss`: which request is answered, also after requests were lost.
-/

namespace DebianKernel.Carl9170

open CountedRing

/-! ## The states of sent frames -/

/-- `struct carl9170_tx_status`. -/
structure TxStatus where
  cookie : BitVec 8
  queue : BitVec 2
  rix : BitVec 2
  tries : BitVec 3
  success : Bool
  deriving DecidableEq, Repr

def maxCmdPayloadLen : Nat := 60

/-- `sizeof(struct carl9170_tx_status)`. -/
def txStatusSize : Nat := 2

def rspTxStatusNum : Nat := maxCmdPayloadLen / txStatusSize

/-- `CARL9170_TX_STATUS_NUM`. -/
def txStatusNum : Nat := rspTxStatusNum

/-- A command `CARL9170_RSP_TXCOMP`: its length in bytes, `ext`, and its body. -/
structure TxComp where
  len : Nat
  ext : Nat
  body : List TxStatus
  deriving DecidableEq, Repr

/-- The loop of `wlan_send_buffered_tx_status`. Each turn sends at least one state. -/
def sendTxStatusLoop : Nat → CountedRing TxStatus → CountedRing TxStatus × List TxComp
  | 0, r => (r, [])
  | n + 1, r =>
    if r.pending = 0 then (r, [])
    else
      let len := min r.pending rspTxStatusNum
      let len := min len (txStatusNum - r.head)
      let rest := sendTxStatusLoop n (r.skip txStatusNum len)
      (rest.1, ⟨(len * txStatusSize + 3) / 4 * 4, len, r.chunk r.head len⟩ :: rest.2)

def wlanSendBufferedTxStatus (r : CountedRing TxStatus) : CountedRing TxStatus × List TxComp :=
  sendTxStatusLoop r.pending r

/-- `wlan_get_tx_status_buffer`, and what `wlan_tx_complete` writes to the buffer. -/
def wlanPutTxStatus (r : CountedRing TxStatus) (status : TxStatus) :
    CountedRing TxStatus × List TxComp :=
  let tmp := r.tail
  let r := { r with tail := (r.tail + 1) % txStatusNum }
  let (r, sent) := if r.pending = txStatusNum then wlanSendBufferedTxStatus r else (r, [])
  let r := { r with pending := r.pending + 1 }
  ({ r with slots := Function.update r.slots tmp status }, sent)

/-- A command that the host can read. -/
structure TxComp.Ok (c : TxComp) : Prop where
  some : c.body ≠ []
  ext : c.ext = c.body.length
  size : c.body.length * txStatusSize ≤ c.len
  len : c.len ≤ maxCmdPayloadLen
  aligned : 4 ∣ c.len

theorem sendTxStatusLoop_eq {fuel : Nat} {l : Log TxStatus} {r : CountedRing TxStatus}
    (h : Follows txStatusNum l r) (hexact : l.Exact txStatusNum) (hfuel : l.pending ≤ fuel) :
    Follows txStatusNum (l.skip l.pending) (sendTxStatusLoop fuel r).1 ∧
      (sendTxStatusLoop fuel r).2.flatMap TxComp.body = l.puts.drop l.taken ∧
      ∀ c ∈ (sendTxStatusLoop fuel r).2, c.Ok := by
  induction fuel generalizing l r with
  | zero =>
    have hnone : l.pending = 0 := Nat.le_zero.mp hfuel
    have hdrop : l.puts.drop l.taken = [] := by
      rw [List.drop_eq_nil_iff, hexact.1, hnone, Nat.add_zero]
    rw [sendTxStatusLoop, hdrop, hnone]
    exact ⟨h, rfl, fun c hc => absurd hc List.not_mem_nil⟩
  | succ fuel ih =>
    rcases Nat.eq_zero_or_pos l.pending with hnone | hpos
    · have hdrop : l.puts.drop l.taken = [] := by
        rw [List.drop_eq_nil_iff, hexact.1, hnone, Nat.add_zero]
      rw [sendTxStatusLoop, if_pos (h.pending.trans hnone), hdrop, hnone]
      exact ⟨h, rfl, fun c hc => absurd hc List.not_mem_nil⟩
    · have hhead : r.head < txStatusNum := by
        rw [h.head]
        exact Nat.mod_lt _ (by decide)
      have hne : ¬r.pending = 0 := by rw [h.pending]; exact Nat.ne_of_gt hpos
      rw [sendTxStatusLoop, if_neg hne]
      dsimp only
      generalize hk : min (min r.pending rspTxStatusNum) (txStatusNum - r.head) = k
      have hbounds : 0 < k ∧ k ≤ l.pending ∧ r.head + k ≤ txStatusNum ∧ k ≤ 30 := by
        rw [h.pending] at hk
        have hnum : rspTxStatusNum = 30 := rfl
        omega
      obtain ⟨hk0, hkp, hkn, hk30⟩ := hbounds
      have hchunk := h.chunk_eq hexact hkp hkn
      have hlen : (r.chunk r.head k).length = k := by
        rw [chunk, List.length_map, List.length_range]
      have hskip : (l.skip k).pending = l.pending - k := rfl
      obtain ⟨hfollows, hbody, hok⟩ := ih (h.skip hkp) (hexact.skip hkp) (by omega)
      have hall : (l.skip k).skip (l.skip k).pending = l.skip l.pending := by
        have htaken : l.taken + k + (l.pending - k) = l.taken + l.pending := by omega
        have hpend : l.pending - k - (l.pending - k) = l.pending - l.pending := by omega
        simp only [Log.skip, htaken, hpend]
      rw [hall] at hfollows
      refine ⟨hfollows, ?_, fun c hc => ?_⟩
      · have hdrop : (l.skip k).puts.drop (l.skip k).taken = (l.puts.drop l.taken).drop k := by
          rw [Log.skip, List.drop_drop]
        rw [List.flatMap_cons, hbody, hdrop, hchunk, List.take_append_drop]
      · rcases List.mem_cons.mp hc with rfl | hc
        · refine ⟨fun (hnil : r.chunk r.head k = []) => ?_, hlen.symm, ?_, ?_,
            Nat.dvd_mul_left _ _⟩
          · rw [hnil] at hlen
            exact Nat.ne_of_gt hk0 hlen.symm
          · dsimp only
            rw [hlen, txStatusSize]
            omega
          · dsimp only
            rw [txStatusSize, maxCmdPayloadLen]
            omega
        · exact hok c hc

/-- The loop does not look at the place to write. -/
theorem sendTxStatusLoop_tail (fuel t : Nat) (r : CountedRing TxStatus) :
    sendTxStatusLoop fuel { r with tail := t } =
      ({ (sendTxStatusLoop fuel r).1 with tail := t }, (sendTxStatusLoop fuel r).2) := by
  induction fuel generalizing r with
  | zero => rfl
  | succ fuel ih =>
    rw [sendTxStatusLoop, sendTxStatusLoop]
    dsimp only
    split
    · rfl
    · have hskip : ∀ k, skip txStatusNum { r with tail := t } k =
          { skip txStatusNum r k with tail := t } := fun k => rfl
      rw [hskip, ih]
      rfl

theorem sendTxStatusLoop_keeps (fuel : Nat) (r : CountedRing TxStatus) :
    (sendTxStatusLoop fuel r).1.tail = r.tail ∧ (sendTxStatusLoop fuel r).1.slots = r.slots := by
  induction fuel generalizing r with
  | zero => exact ⟨rfl, rfl⟩
  | succ fuel ih =>
    rw [sendTxStatusLoop]
    split
    · exact ⟨rfl, rfl⟩
    · exact ih _

/-- A full ring is emptied before a state is put into it. -/
theorem wlanPutTxStatus_eq {l : Log TxStatus} {r : CountedRing TxStatus} (status : TxStatus)
    (h : Follows txStatusNum l r) (hexact : l.Exact txStatusNum) :
    ∃ l', Follows txStatusNum l' (wlanPutTxStatus r status).1 ∧ l'.Exact txStatusNum ∧
      l'.puts = l.puts ++ [status] ∧
      l.puts.take l.taken ++ (wlanPutTxStatus r status).2.flatMap TxComp.body =
        l'.puts.take l'.taken ∧ ∀ c ∈ (wlanPutTxStatus r status).2, c.Ok := by
  have hle : l.taken ≤ l.puts.length := by
    have hlen := hexact.1
    omega
  rcases eq_or_ne r.pending txStatusNum with hfull | hroom
  · obtain ⟨hfollows, hbody, hok⟩ := sendTxStatusLoop_eq h hexact h.pending.ge
    obtain ⟨htail, hslots⟩ := sendTxStatusLoop_keeps r.pending r
    have hempty : (l.skip l.pending).pending = 0 := Nat.sub_self _
    have hput : wlanPutTxStatus r status =
        ((sendTxStatusLoop r.pending r).1.put txStatusNum status,
          (sendTxStatusLoop r.pending r).2) := by
      have hzero : (sendTxStatusLoop r.pending r).1.pending < txStatusNum := by
        rw [hfollows.pending, hempty]
        decide
      rw [wlanPutTxStatus, if_pos hfull, wlanSendBufferedTxStatus, sendTxStatusLoop_tail]
      dsimp only
      rw [CountedRing.put, if_pos hzero, htail]
    have hskip := hexact.skip (Nat.le_refl l.pending)
    rw [hput]
    refine ⟨_, hfollows.put status, (hskip.put (by rw [hempty]; decide) status).1, rfl, ?_, hok⟩
    have htaken : (l.skip l.pending).taken = l.puts.length := hexact.1.symm
    rw [hbody, Log.put, List.take_append_drop]
    dsimp only
    rw [htaken, Log.skip, List.take_left]
  · have hput : wlanPutTxStatus r status = (r.put txStatusNum status, []) := by
      have hlt : r.pending < txStatusNum := by
        refine lt_of_le_of_ne ?_ hroom
        rw [h.pending]
        exact hexact.2
      rw [wlanPutTxStatus, if_neg hroom]
      dsimp only
      rw [CountedRing.put, if_pos hlt]
    have hlt : l.pending < txStatusNum := by
      rw [h.pending] at hroom
      exact lt_of_le_of_ne hexact.2 hroom
    rw [hput]
    refine ⟨_, h.put status, (hexact.put hlt status).1, rfl, ?_,
      fun c hc => absurd hc List.not_mem_nil⟩
    rw [List.flatMap_nil, List.append_nil, Log.put, List.take_append_of_le_length hle]

inductive TxOp
  | complete (status : TxStatus)
  | send

/-- The ring and what the host got, after frames were completed and `wlan_janitor` ran. -/
def txRun : CountedRing TxStatus → List TxOp → CountedRing TxStatus × List TxComp
  | r, [] => (r, [])
  | r, .complete status :: ops =>
    let first := wlanPutTxStatus r status
    let rest := txRun first.1 ops
    (rest.1, first.2 ++ rest.2)
  | r, .send :: ops =>
    let first := wlanSendBufferedTxStatus r
    let rest := txRun first.1 ops
    (rest.1, first.2 ++ rest.2)

def completed : List TxOp → List TxStatus
  | [] => []
  | .complete status :: ops => status :: completed ops
  | .send :: ops => completed ops

theorem txRun_follows (ops : List TxOp) {l : Log TxStatus} {r : CountedRing TxStatus}
    (h : Follows txStatusNum l r) (hexact : l.Exact txStatusNum) :
    ∃ l', Follows txStatusNum l' (txRun r ops).1 ∧ l'.Exact txStatusNum ∧
      l'.puts = l.puts ++ completed ops ∧
      l.puts.take l.taken ++ (txRun r ops).2.flatMap TxComp.body = l'.puts.take l'.taken ∧
      ∀ c ∈ (txRun r ops).2, c.Ok := by
  induction ops generalizing l r with
  | nil =>
    refine ⟨l, h, hexact, ?_, ?_, fun c hc => absurd hc List.not_mem_nil⟩
    · rw [completed, List.append_nil]
    · rw [txRun, List.flatMap_nil, List.append_nil]
  | cons op ops ih =>
    cases op with
    | complete status =>
      obtain ⟨m, hm, hmexact, hputs, hout, hok⟩ := wlanPutTxStatus_eq status h hexact
      obtain ⟨l', hl', hlexact, hputs', hout', hok'⟩ := ih hm hmexact
      refine ⟨l', hl', hlexact, ?_, ?_, fun c hc => ?_⟩
      · rw [hputs', hputs, completed, List.append_assoc, List.singleton_append]
      · rw [txRun, List.flatMap_append, ← List.append_assoc, hout, hout']
      · exact (List.mem_append.mp hc).elim (hok c) (hok' c)
    | send =>
      obtain ⟨hm, hbody, hok⟩ := sendTxStatusLoop_eq h hexact h.pending.ge
      obtain ⟨l', hl', hlexact, hputs', hout', hok'⟩ := ih hm (hexact.skip (Nat.le_refl _))
      refine ⟨l', hl', hlexact, hputs', ?_, fun c hc => ?_⟩
      · have htaken : (l.skip l.pending).puts.take (l.skip l.pending).taken = l.puts := by
          rw [Log.skip, ← hexact.1, List.take_length]
        rw [htaken] at hout'
        rw [txRun, List.flatMap_append, wlanSendBufferedTxStatus, hbody, ← List.append_assoc,
          List.take_append_drop, hout']
      · exact (List.mem_append.mp hc).elim (hok c) (hok' c)

/-- `struct carl9170_rsp`. -/
structure Rsp where
  len : BitVec 8
  cmd : BitVec 8
  seq : BitVec 8
  ext : BitVec 8
  data : List (BitVec 8)
  deriving DecidableEq, Repr

def intRqCaches : Nat := 16
def intMagicHeaderSize : Nat := 12
def intBlockSize : Nat := 256 + 64

/-- `get_int_buf`, and what `send_cmd_to_host` writes to the buffer. -/
def sendCmdToHost (r : CountedRing Rsp) (len type ext : BitVec 8) (body : List (BitVec 8)) :
    CountedRing Rsp :=
  r.put intRqCaches ⟨len, type, BitVec.ofNat 8 r.tail, ext, body⟩

def dequeueIntBuf (space : Nat) (r : CountedRing Rsp) : Option (Rsp × CountedRing Rsp) :=
  if r.pending > 0 then
    if (r.slots r.head).len.toNat + 8 > space then none
    else some (r.slots r.head, r.skip intRqCaches 1)
  else none

/-- The loop of `usb_status_in`: the answers that are copied, the ring and `tlen`. Each turn takes
one that waits. -/
def statusInLoop : Nat → CountedRing Rsp → Nat → Nat → List Rsp × CountedRing Rsp × Nat
  | 0, r, _, tlen => ([], r, tlen)
  | n + 1, r, rem, tlen =>
    match dequeueIntBuf rem r with
    | none => ([], r, tlen)
    | some (rsp, r') =>
      let elen := rsp.len.toNat + 4
      let rest := statusInLoop n r' (rem - elen) (tlen + elen)
      (rsp :: rest.1, rest.2)

/-- `usb_status_in` once the descriptor is available. -/
def usbStatusIn (r : CountedRing Rsp) : List Rsp × CountedRing Rsp × Nat :=
  statusInLoop r.pending r (intBlockSize - intMagicHeaderSize) intMagicHeaderSize

/-- The bytes of answers that stand one after the other. -/
def rspBytes (block : List Rsp) : Nat := (block.map fun rsp => rsp.len.toNat + 4).sum

theorem statusInLoop_eq (fuel : Nat) {l : Log Rsp} {r : CountedRing Rsp} (rem tlen : Nat)
    (h : Follows intRqCaches l r) (hexact : l.Exact intRqCaches) :
    ∃ k ≤ l.pending, (statusInLoop fuel r rem tlen).1 = (l.puts.drop l.taken).take k ∧
      Follows intRqCaches (l.skip k) (statusInLoop fuel r rem tlen).2.1 := by
  induction fuel generalizing l r rem tlen with
  | zero => exact ⟨0, Nat.zero_le _, rfl, h⟩
  | succ fuel ih =>
    rw [statusInLoop, dequeueIntBuf]
    split_ifs with hpos hspace
    · exact ⟨0, Nat.zero_le _, rfl, h⟩
    · rw [h.pending] at hpos
      obtain ⟨hlt, hslot⟩ := h.head_of_exact hexact hpos
      have hone : 1 ≤ l.pending := hpos
      dsimp only
      generalize r.slots r.head = b at hspace hslot ⊢
      have hskip : (l.skip 1).pending = l.pending - 1 := rfl
      obtain ⟨k, hk, hout, hfollows⟩ :=
        ih (rem - (b.len.toNat + 4)) (tlen + (b.len.toNat + 4)) (h.skip hone) (hexact.skip hone)
      have hall : (l.skip 1).skip k = l.skip (k + 1) := by
        simp only [Log.skip, Nat.add_assoc, Nat.add_comm 1 k, Nat.sub_sub]
      rw [hall] at hfollows
      refine ⟨k + 1, by omega, ?_, hfollows⟩
      rw [hout, List.drop_eq_getElem_cons hlt, List.take_succ_cons, hslot]
      rfl
    · exact ⟨0, Nat.zero_le _, rfl, h⟩

/-- What is copied stays in the block, and the loop ends only when the next answer does not fit
or nothing waits. -/
theorem statusInLoop_fits {fuel : Nat} (rem tlen : Nat) {r : CountedRing Rsp}
    (hfuel : r.pending ≤ fuel) :
    (statusInLoop fuel r rem tlen).2.2 = tlen + rspBytes (statusInLoop fuel r rem tlen).1 ∧
      rspBytes (statusInLoop fuel r rem tlen).1 ≤ rem ∧
      ((statusInLoop fuel r rem tlen).2.1.pending = 0 ∨
        rem - rspBytes (statusInLoop fuel r rem tlen).1 <
          ((statusInLoop fuel r rem tlen).2.1.slots
            (statusInLoop fuel r rem tlen).2.1.head).len.toNat + 8) := by
  induction fuel generalizing r rem tlen with
  | zero => exact ⟨rfl, Nat.zero_le _, .inl (Nat.le_zero.mp hfuel)⟩
  | succ fuel ih =>
    rw [statusInLoop, dequeueIntBuf]
    split_ifs with hpos hspace
    · exact ⟨rfl, Nat.zero_le _, .inr hspace⟩
    · dsimp only
      generalize r.slots r.head = b at hspace ⊢
      have hpending : (skip intRqCaches r 1).pending ≤ fuel := by
        rw [skip]
        dsimp only
        omega
      obtain ⟨htlen, hrem, hend⟩ := ih (rem - (b.len.toNat + 4))
        (tlen + (b.len.toNat + 4)) hpending
      have hbytes : ∀ block, rspBytes (b :: block) = b.len.toNat + 4 + rspBytes block :=
        fun block => by rw [rspBytes, List.map_cons, List.sum_cons]; rfl
      rw [Nat.sub_sub] at hend
      rw [hbytes]
      exact ⟨by rw [htlen, Nat.add_assoc], by omega, hend⟩
    · exact ⟨rfl, Nat.zero_le _, .inl (Nat.eq_zero_of_not_pos hpos)⟩

/-- What a caller of `send_cmd_to_host` passes. -/
structure HostCmd where
  len : BitVec 8
  type : BitVec 8
  ext : BitVec 8
  body : List (BitVec 8)

inductive IntOp
  | send (cmd : HostCmd)
  | statusIn (intDescAvailable : Bool)

/-- The ring and the blocks that the host gets. An empty block is not sent. -/
def intRun : CountedRing Rsp → List IntOp → CountedRing Rsp × List (List Rsp)
  | r, [] => (r, [])
  | r, .send cmd :: ops => intRun (sendCmdToHost r cmd.len cmd.type cmd.ext cmd.body) ops
  | r, .statusIn false :: ops => intRun r ops
  | r, .statusIn true :: ops =>
    let block := usbStatusIn r
    let rest := intRun block.2.1 ops
    if block.2.2 = intMagicHeaderSize then rest else (rest.1, block.1 :: rest.2)

/-- No answer is written while 16 wait. -/
def IntFits : CountedRing Rsp → List IntOp → Prop
  | _, [] => True
  | r, .send cmd :: ops =>
    r.pending < intRqCaches ∧ IntFits (sendCmdToHost r cmd.len cmd.type cmd.ext cmd.body) ops
  | r, .statusIn false :: ops => IntFits r ops
  | r, .statusIn true :: ops => IntFits (usbStatusIn r).2.1 ops

/-- The answers of a run, numbered as the host sees them. -/
def answers : Nat → List IntOp → List Rsp
  | _, [] => []
  | i, .send cmd :: ops =>
    ⟨cmd.len, cmd.type, BitVec.ofNat 8 (i % intRqCaches), cmd.ext, cmd.body⟩ :: answers (i + 1) ops
  | i, .statusIn _ :: ops => answers i ops

theorem rspBytes_eq_zero {block : List Rsp} (h : rspBytes block = 0) : block = [] := by
  cases block with
  | nil => rfl
  | cons rsp block =>
    rw [rspBytes, List.map_cons, List.sum_cons] at h
    omega

theorem intRun_follows (ops : List IntOp) {l : Log Rsp} {r : CountedRing Rsp}
    (h : Follows intRqCaches l r) (hexact : l.Exact intRqCaches) (hfits : IntFits r ops) :
    ∃ l', Follows intRqCaches l' (intRun r ops).1 ∧ l'.Exact intRqCaches ∧
      l'.puts = l.puts ++ answers l.puts.length ops ∧
      l.puts.take l.taken ++ (intRun r ops).2.flatten = l'.puts.take l'.taken ∧
      ∀ block ∈ (intRun r ops).2, block ≠ [] := by
  induction ops generalizing l r with
  | nil =>
    refine ⟨l, h, hexact, ?_, ?_, fun block hblock => absurd hblock List.not_mem_nil⟩
    · rw [answers, List.append_nil]
    · rw [intRun, List.flatten_nil, List.append_nil]
  | cons op ops ih =>
    match op with
    | .send cmd =>
      obtain ⟨hroom, hfits⟩ := hfits
      rw [h.pending] at hroom
      have hle : l.taken ≤ l.puts.length := by
        have hlen := hexact.1
        omega
      obtain ⟨l', hl', hlexact, hputs, hout, hne⟩ :=
        ih (h.put _) (hexact.put hroom _).1 hfits
      refine ⟨l', hl', hlexact, ?_, ?_, hne⟩
      · rw [hputs, Log.put, List.length_append, List.length_singleton, List.append_assoc, h.tail]
        rfl
      · rw [Log.put, List.take_append_of_le_length hle] at hout
        exact hout
    | .statusIn false => exact ih h hexact hfits
    | .statusIn true =>
      obtain ⟨k, hk, hblock, hfollows⟩ :=
        statusInLoop_eq r.pending (intBlockSize - intMagicHeaderSize) intMagicHeaderSize h hexact
      obtain ⟨l', hl', hlexact, hputs, hout, hne⟩ := ih hfollows (hexact.skip hk) hfits
      obtain ⟨htlen, -⟩ := statusInLoop_fits (intBlockSize - intMagicHeaderSize)
        intMagicHeaderSize (Nat.le_refl r.pending)
      have hstart : (l.skip k).puts.take (l.skip k).taken =
          l.puts.take l.taken ++ (usbStatusIn r).1 := by
        rw [Log.skip, usbStatusIn, hblock, ← List.take_add]
      rw [hstart, List.append_assoc] at hout
      refine ⟨l', ?_⟩
      rw [intRun]
      split
      · next hempty =>
        rw [usbStatusIn, htlen] at hempty
        have hnil : (usbStatusIn r).1 = [] := rspBytes_eq_zero (Nat.add_eq_left.mp hempty)
        rw [hnil, List.nil_append] at hout
        exact ⟨hl', hlexact, hputs, hout, hne⟩
      · next hsome =>
        refine ⟨hl', hlexact, hputs, hout, fun block hmem => ?_⟩
        rcases List.mem_cons.mp hmem with rfl | hmem
        · rintro (hnil : (statusInLoop _ _ _ _).1 = [])
          rw [hnil] at htlen
          exact hsome htlen
        · exact hne block hmem

/-- While no more than 16 answers wait, the host gets every answer once and in order, with
consecutive numbers, or it waits. -/
theorem intRun_eq (slots : Nat → Rsp) (ops : List IntOp) (hfits : IntFits (empty slots) ops) :
    (intRun (empty slots) ops).2.flatten ++ (intRun (empty slots) ops).1.queued intRqCaches =
      answers 0 ops ∧ ∀ block ∈ (intRun (empty slots) ops).2, block ≠ [] := by
  obtain ⟨l, hl, hexact, hputs, hout, hne⟩ :=
    intRun_follows ops (follows_empty intRqCaches slots) ⟨rfl, Nat.zero_le _⟩ hfits
  rw [List.take_nil, List.nil_append] at hout
  rw [List.nil_append] at hputs
  refine ⟨?_, hne⟩
  rw [hl.queued_eq hexact, hout, List.take_append_drop, hputs]
  rfl

/-- Two answers that come to the host in one block, and one that waits. -/
def threeAnswers : List IntOp :=
  [.send ⟨4, 1, 0, [7]⟩, .statusIn false, .send ⟨0, 2, 1, []⟩, .statusIn true, .send ⟨2, 3, 0, [8]⟩]

theorem intRun_eq_three : (intRun (empty fun _ => ⟨0, 0, 0, 0, []⟩) threeAnswers).2.flatten ++
      (intRun (empty fun _ => ⟨0, 0, 0, 0, []⟩) threeAnswers).1.queued intRqCaches =
        answers 0 threeAnswers ∧
    ∀ block ∈ (intRun (empty fun _ => ⟨0, 0, 0, 0, []⟩) threeAnswers).2, block ≠ [] :=
  intRun_eq _ threeAnswers ⟨by decide, by decide, by decide, trivial⟩

/-! ## Block ack requests -/

/-- `struct carl9170_bar_ctx`. -/
structure BarCtx where
  ta : BitVec 48
  ra : BitVec 48
  startSeqNum : BitVec 16
  control : BitVec 16
  deriving DecidableEq, Repr

/-- What `handle_bar` reads of a frame: `struct ieee80211_bar`, its length and the error of the
receiver. -/
structure Bar where
  ra : BitVec 48
  ta : BitVec 48
  control : BitVec 16
  startSeqNum : BitVec 16
  len : Nat
  macErr : BitVec 8

/-- What `wlan_send_buffered_ba` writes of `struct ieee80211_ba`. -/
structure Ba where
  ra : BitVec 48
  ta : BitVec 48
  control : BitVec 16
  startSeqNum : BitVec 16
  bitmap : BitVec 64
  deriving DecidableEq, Repr

/-- `CONFIG_CARL9170FW_BACK_REQS_NUM`. -/
def backReqsNum : Nat := 4

def sizeofBar : Nat := 20
def fcsLen : Nat := 4
def barCtrlMultiTid : BitVec 16 := 0x0002
def barCtrlCbmtidCompressedBa : BitVec 16 := 0x0004

/-- `handle_bar` takes the request. -/
def Bar.accepted (bar : Bar) : Bool :=
  bar.macErr == 0 && !decide (bar.len < sizeofBar + fcsLen) &&
    !(bar.control &&& barCtrlMultiTid != 0 || bar.control &&& barCtrlCbmtidCompressedBa == 0)

def Bar.ctx (bar : Bar) : BarCtx := ⟨bar.ta, bar.ra, bar.startSeqNum, bar.control⟩

def handleBar (r : CountedRing BarCtx) (bar : Bar) : CountedRing BarCtx :=
  if bar.accepted then r.put backReqsNum bar.ctx else r

def BarCtx.answer (ctx : BarCtx) : Ba :=
  ⟨ctx.ta, ctx.ra, ctx.control ||| 1, ctx.startSeqNum, 0⟩

def wlanSendBufferedBa (fwDescAvailable : Bool) (r : CountedRing BarCtx) :
    Option (Ba × CountedRing BarCtx) :=
  if r.pending = 0 then none
  else if !fwDescAvailable then none
  else some ((r.slots r.head).answer, r.skip backReqsNum 1)

inductive BaOp
  | bar (bar : Bar)
  | janitor (fwDescAvailable : Bool)

/-- The ring and the block acks that are sent. -/
def baRun : CountedRing BarCtx → List BaOp → CountedRing BarCtx × List Ba
  | r, [] => (r, [])
  | r, .bar bar :: ops => baRun (handleBar r bar) ops
  | r, .janitor available :: ops =>
    match wlanSendBufferedBa available r with
    | none => baRun r ops
    | some (ba, r') => ((baRun r' ops).1, ba :: (baRun r' ops).2)

/-- The accesses to the ring. -/
def ringOps : List BaOp → List (Op BarCtx)
  | [] => []
  | .bar bar :: ops => if bar.accepted then .put bar.ctx :: ringOps ops else ringOps ops
  | .janitor available :: ops => if available then .take :: ringOps ops else ringOps ops

theorem baRun_run (ops : List BaOp) (r : CountedRing BarCtx) :
    baRun r ops = ((run backReqsNum r (ringOps ops)).1,
      (run backReqsNum r (ringOps ops)).2.map BarCtx.answer) := by
  induction ops generalizing r with
  | nil => rfl
  | cons op ops ih =>
    match op with
    | .bar bar =>
      rw [baRun, ringOps, ih, handleBar]
      split <;> rfl
    | .janitor false =>
      have hnone : wlanSendBufferedBa false r = none := by
        rw [wlanSendBufferedBa]
        split <;> rfl
      rw [baRun, hnone]
      exact ih r
    | .janitor true =>
      have htake : wlanSendBufferedBa true r =
          (r.take backReqsNum).map fun x => (x.1.answer, x.2) := by
        rw [wlanSendBufferedBa, take]
        split <;> rfl
      rw [baRun, ringOps, if_pos rfl, run, htake]
      cases r.take backReqsNum with
      | none => exact ih r
      | some x =>
        dsimp only [Option.map_some]
        rw [ih]
        rfl

/-- The answered requests of every run, by what was requested: when `p` requests came and `d` were
answered, `Log.run` answers the newest of the `p` that was written to the slot of `d`. While no more
than four wait, that is each request once and in order. -/
theorem baRun_eq (slots : Nat → BarCtx) (ops : List BaOp) :
    (baRun (empty slots) ops).2 =
        (Log.run backReqsNum ⟨[], 0, 0⟩ (ringOps ops)).2.map BarCtx.answer ∧
      (Fits backReqsNum 0 (ringOps ops) → ∃ k ≤ (puts (ringOps ops)).length,
        (baRun (empty slots) ops).2 = ((puts (ringOps ops)).take k).map BarCtx.answer ∧
        (baRun (empty slots) ops).1.pending = (puts (ringOps ops)).length - k) := by
  have hpos : 0 < backReqsNum := by decide
  rw [baRun_run]
  refine ⟨congrArg (List.map BarCtx.answer) (run_eq hpos slots _), fun hfits => ?_⟩
  obtain ⟨k, hout, hpending, hk⟩ := run_fits hpos slots hfits
  exact ⟨k, hk, congrArg (List.map BarCtx.answer) hout, hpending⟩

def requestOf (seq : BitVec 16) : Bar :=
  { ra := 1, ta := 2, control := 0x0004, startSeqNum := seq, len := 24, macErr := 0 }

theorem baRun_eq_two : ∃ k ≤ 2,
    (baRun (empty fun _ => ⟨0, 0, 0, 0⟩)
        [.bar (requestOf 3), .bar (requestOf 4), .janitor true]).2 =
      ([(requestOf 3).ctx, (requestOf 4).ctx].take k).map BarCtx.answer ∧
    (baRun (empty fun _ => ⟨0, 0, 0, 0⟩)
        [.bar (requestOf 3), .bar (requestOf 4), .janitor true]).1.pending = 2 - k :=
  (baRun_eq (fun _ => ⟨0, 0, 0, 0⟩) [.bar (requestOf 3), .bar (requestOf 4), .janitor true]).2
    ⟨by decide, by decide, trivial⟩

theorem puts_ringOps (ops : List BaOp) {bar : Bar} (hbar : bar.accepted) :
    ringOps (ops ++ [.bar bar, .janitor true]) = ringOps ops ++ [.put bar.ctx, .take] := by
  induction ops with
  | nil => simp only [List.nil_append, ringOps, hbar, if_true]
  | cons op ops ih =>
    cases op with
    | bar b =>
      rw [List.cons_append, ringOps, ringOps, ih]
      split <;> rfl
    | janitor available =>
      rw [List.cons_append, ringOps, ringOps, ih]
      split <;> rfl

/-- When requests were lost and nothing waits any more, the next request is answered as if it was
an earlier one, unless the number of lost requests is a multiple of four. -/
theorem ba_after_loss (slots : Nat → BarCtx) (ops : List BaOp) (bar : Bar)
    (hbar : bar.accepted) (hempty : (baRun (empty slots) ops).1.pending = 0) :
    ∃ ctx, (baRun (empty slots) (ops ++ [.bar bar, .janitor true])).2 =
        (baRun (empty slots) ops).2 ++ [ctx.answer] ∧
      (puts (ringOps ops) ++ [bar.ctx])[(puts (ringOps ops)).length -
        ((puts (ringOps ops)).length - (baRun (empty slots) ops).2.length) % backReqsNum]? =
          some ctx := by
  rw [baRun_run] at hempty
  obtain ⟨ctx, hrun, hctx⟩ :=
    run_after_loss (n := backReqsNum) (by decide) slots (ringOps ops) bar.ctx hempty
  refine ⟨ctx, ?_, ?_⟩
  · rw [baRun_run, baRun_run, puts_ringOps ops hbar, hrun, List.map_append, List.map_singleton]
  · rw [baRun_run, List.length_map]
    exact hctx

/-- One of five requests is lost. -/
def oneLost : List BaOp :=
  ([3, 4, 5, 6, 7].map fun seq => .bar (requestOf seq)) ++ List.replicate 4 (.janitor true)

theorem ba_after_loss_one : ∃ ctx,
    (baRun (empty fun _ => ⟨0, 0, 0, 0⟩) (oneLost ++ [.bar (requestOf 8), .janitor true])).2 =
      (baRun (empty fun _ => ⟨0, 0, 0, 0⟩) oneLost).2 ++ [ctx.answer] ∧
    (puts (ringOps oneLost) ++ [(requestOf 8).ctx])[(puts (ringOps oneLost)).length -
      ((puts (ringOps oneLost)).length - (baRun (empty fun _ => ⟨0, 0, 0, 0⟩) oneLost).2.length) %
        backReqsNum]? = some ctx :=
  ba_after_loss (fun _ => ⟨0, 0, 0, 0⟩) oneLost (requestOf 8) (by decide) (by decide)

end DebianKernel.Carl9170
