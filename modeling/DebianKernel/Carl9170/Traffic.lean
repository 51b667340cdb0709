import DebianKernel.Carl9170.Queues
import DebianKernel.Carl9170.Rings
import DebianKernel.Carl9170.TxRetry
import Mathlib.Data.Fintype.Sum
import Mathlib.Tactic.DeriveFintype

/-!
# The traffic of the carl9170 firmware

The loops of `hostif.c` and `wlan.c` that move packets between the queues of the host and those of
the radio, and what the hardware and the host do to the packets meanwhile. A step is one turn of a
loop: the hardware works on the queues between any two of them.

A step has no value when the firmware reads a frame where none is, uses a queue that is not there,
or does not come to the end of a packet.
-/

namespace DebianKernel.Carl9170

/-! ## The state -/

/-- The buffers of `dma_mem`: the blocks, and those of `dma_mem.reserved`. -/
inductive Buffer
  | data (i : Nat)
  | ba
  | cmd
  | rsp
  deriving DecidableEq, Repr

abbrev Pointer := DataAddr Buffer

/-- The queues of `fw.pta` and `fw.wlan`, with `n` interfaces. -/
inductive Place (n : Nat)
  | down
  | up
  | retry
  | rx
  | tx (i : Fin 5)
  | cab (v : Fin n)
  deriving DecidableEq, Fintype, Repr

/-- `fw`, less the queues and descriptors. `sent` and `taken` are the history: what the host was
told, and the cookie and queue of every frame that came from the host. -/
structure Context (n : Nat) where
  super : Buffer → Super
  intDescAvailable : Bool
  fwDescAvailable : Bool
  fwDescData : Option Pointer
  cabQueueLen : Fin n → BitVec 32
  queuedBar : BitVec 32
  txStatus : CountedRing TxStatus
  sent : List TxComp
  taken : List (BitVec 8 × BitVec 2)

structure Firmware (n : Nat) where
  mem : Heap Buffer
  queue : Place n → Queue
  intDesc : Addr
  fwDesc : Addr
  ctx : Context n

variable {n : Nat}

/-- `CARL9170_TX_SUPERDESC_LEN`. -/
def superdescLen : Nat := 24

def ctrlTxfail : BitVec 16 := 1
def ctrlBafail : BitVec 16 := 2
def ctrlFail : BitVec 16 := 3
def ctrlLsFsBits : BitVec 16 := 0x300
def fctlRetry : BitVec 16 := 0x0800
def fctlMoredata : BitVec 16 := 0x2000

/-- `ieee80211_is_back_req`. -/
def isBackReq (frameControl : BitVec 16) : Bool := frameControl &&& 0x00fc == 0x0084

/-- The frame that stands at the start of a buffer. -/
def superAt (p : Pointer) : Option Buffer := if p.offset = 0 then some p.buffer else none

/-- `get_super`. -/
def getSuper (p : Pointer) : Pointer := { p with offset := p.offset - superdescLen }

/-- `tx_queue[super->s.queue]`. -/
def txQueue (s : Super) : Place n := .tx ⟨s.queue.toNat, Nat.lt_trans s.queue.isLt (by decide)⟩

/-- `cab_queue[super->s.vif_id]`. -/
def cabIndex (s : Super) : Option (Fin n) :=
  if h : s.vifId.toNat < n then some ⟨s.vifId.toNat, h⟩ else none

namespace Context

def setSuper (c : Context n) (b : Buffer) (s : Super) : Context n :=
  { c with super := Function.update c.super b s }

/-- The history of a frame from the host begins. -/
def take (c : Context n) (b : Buffer) : Context n :=
  { c with taken := c.taken ++ [((c.super b).cookie, (c.super b).queue)] }

/-- `wlan_tx_complete`. -/
def wlanTxComplete (c : Context n) (b : Buffer) (txs : Bool) : Context n :=
  let s := c.super b
  let first := wlanPutTxStatus c.txStatus
    { cookie := s.cookie, queue := s.queue, rix := s.rix.setWidth 2, tries := s.cnt.setWidth 3,
      success := txs }
  { c.setSuper b { s with cookie := 0 } with txStatus := first.1, sent := c.sent ++ first.2 }

def sendBuffered (c : Context n) : Context n :=
  let first := wlanSendBufferedTxStatus c.txStatus
  { c with txStatus := first.1, sent := c.sent ++ first.2 }

/-- What `wlan_tx` does before the frame is put into a queue. -/
def wlanTxInit (c : Context n) (b : Buffer) : Context n :=
  let c := if isBackReq (c.super b).frameControl then { c with queuedBar := c.queuedBar + 1 } else c
  c.setSuper b (c.super b).start

def addCab (c : Context n) (v : Fin n) : Context n :=
  { c with cabQueueLen := Function.update c.cabQueueLen v (c.cabQueueLen v + 1) }

def subCab (c : Context n) (v : Fin n) : Context n :=
  { c with cabQueueLen := Function.update c.cabQueueLen v (c.cabQueueLen v - 1) }

/-- The end of `wlan_tx_status`, for a frame of the host. -/
def wlanTxDone (c : Context n) (b : Buffer) (success : Bool) : Option (Context n) := do
  let c ← if (c.super b).cab then (cabIndex (c.super b)).map c.subCab else some c
  let backReq := isBackReq (c.super b).frameControl
  let c := c.wlanTxComplete b success
  return if backReq then { c with queuedBar := c.queuedBar - 1 } else c

end Context

/-! ## The firmware -/

namespace Firmware

def after (s : Firmware n) (p : Place n) (r : Heap Buffer × Queue × Addr) : Firmware n × Addr :=
  ({ s with mem := r.1, queue := Function.update s.queue p r.2.1 }, r.2.2)

def unlinkHead (s : Firmware n) (p : Place n) : Option (Firmware n × Addr) :=
  (dmaUnlinkHead s.mem (s.queue p)).map (s.after p)

def dequeueNotBits (s : Firmware n) (p : Place n) (bits : BitVec 16) :
    Option (Firmware n × Addr) :=
  (dmaDequeueNotBits s.mem (s.queue p) bits).map (s.after p)

/-- The condition of `__while_desc_bits`. -/
def headHasBits (s : Firmware n) (p : Place n) (bits : BitVec 16) : Bool :=
  (s.queue p).head != (s.queue p).terminator &&
    (s.mem (s.queue p).head).status &&& ownBits == bits

variable (fuel : Nat)

def put (s : Firmware n) (p : Place n) (desc : Addr) : Option (Firmware n) :=
  (dmaPut fuel s.mem (s.queue p) desc).map fun r =>
    { s with mem := r.1, queue := Function.update s.queue p r.2 }

def reclaim (s : Firmware n) (p : Place n) (desc : Addr) : Option (Firmware n) :=
  (dmaReclaim fuel s.mem (s.queue p) desc).map fun r =>
    { s with mem := r.1, queue := Function.update s.queue p r.2 }

def hideSuper (s : Firmware n) (desc : Addr) : Firmware n :=
  { s with mem := s.mem.upd desc fun d =>
      { d with dataAddr := d.dataAddr.map fun p => { p with offset := p.offset + superdescLen },
               dataSize := d.dataSize - BitVec.ofNat 16 superdescLen,
               totalLen := d.totalLen - BitVec.ofNat 16 superdescLen } }

def unhideSuper (s : Firmware n) (desc : Addr) : Firmware n :=
  { s with mem := s.mem.upd desc fun d =>
      { d with dataAddr := d.dataAddr.map getSuper,
               dataSize := d.dataSize + BitVec.ofNat 16 superdescLen,
               totalLen := d.totalLen + BitVec.ofNat 16 superdescLen } }

/-- `__wlan_tx`: the frame goes to the queue it names. -/
def wlanTxAll (s : Firmware n) (desc : Addr) : Option (Firmware n) := do
  let super ← (s.mem desc).dataAddr
  let b ← superAt (getSuper super)
  s.put fuel (txQueue (s.ctx.super b)) desc

def wlanTx (s : Firmware n) (desc : Addr) : Option (Firmware n) := do
  let super ← (s.mem desc).dataAddr
  let b ← superAt super
  let s := { s with ctx := s.ctx.wlanTxInit b }
  let s := s.hideSuper desc
  if (s.ctx.super b).cab then
    let v ← cabIndex (s.ctx.super b)
    let s := { s with ctx := s.ctx.addCab v }
    s.put fuel (.cab v) desc
  else s.wlanTxAll fuel desc

/-- `length_check`. -/
def lengthCheck (totalLen : BitVec 16) (super : Super) : Bool :=
  if totalLen.toNat < superdescLen then false
  else if super.len.toNat > totalLen.toNat then false else true

/-- A turn of `handle_download`. -/
def handleDownload (s : Firmware n) : Option (Firmware n) :=
  match s.dequeueNotBits .down ownBitsHw with
  | none => some s
  | some (s, desc) => do
    let super ← (s.mem desc).dataAddr
    let b ← superAt super
    let s := { s with ctx := s.ctx.take b }
    if lengthCheck (s.mem desc).totalLen (s.ctx.super b) = false then
      let s := { s with ctx := s.ctx.wlanTxComplete b false }
      s.reclaim fuel .down desc
    else s.wlanTx fuel desc

/-- A turn of `handle_upload`. -/
def handleUpload (s : Firmware n) : Option (Firmware n) :=
  match s.dequeueNotBits .up ownBitsHw with
  | none => some s
  | some (s, desc) =>
    if (s.mem desc).dataAddr = some ⟨.rsp, 0⟩ then
      some { s with intDesc := desc, ctx := { s.ctx with intDescAvailable := true } }
    else s.reclaim fuel .rx desc

/-- A turn of the first loop of `handle_download_exception`. -/
def handleDownloadException (s : Firmware n) (target : Addr) : Option (Firmware n) :=
  if s.headHasBits .down ownBitsHw then
    if (s.queue .down).head = target then some s
    else do
      let (s, desc) ← s.unlinkHead .down
      s.reclaim fuel .down desc
  else some s

/-- `dma_fix_downqueue`. -/
def dmaFixDownqueue (s : Firmware n) (desc : Addr) : Firmware n :=
  { s with mem := s.mem.upd desc fun d =>
      { d with status := ownBitsHw, ctrl := 0, dataSize := 0, totalLen := blockSize,
               lastAddr := desc } }

/-- A turn of the second loop of `handle_download_exception`. -/
def fixDownqueue (s : Firmware n) (desc : Addr) : Firmware n :=
  if (s.mem desc).status &&& ownBits = ownBitsSw then s.dmaFixDownqueue desc else s

/-- A turn of `handle_rx`. `keep` says what `wlan_rx_filter` and the filter of the host make of
the frame. -/
def handleRx (s : Firmware n) (keep : Bool) : Option (Firmware n) :=
  match s.dequeueNotBits .rx ownBitsHw with
  | none => some s
  | some (s, desc) => if keep then s.put fuel .up desc else s.reclaim fuel .rx desc

/-- The second half of `wlan_tx_status`: the frame is not tried again. -/
def wlanTxEnd (s : Firmware n) (i : Fin 5) (success : Bool) : Option (Firmware n) := do
  let (s, desc) ← s.unlinkHead (.tx i)
  let s := s.unhideSuper desc
  let super ← (s.mem desc).dataAddr
  let b ← superAt super
  if some super = s.ctx.fwDescData then
    return { s with fwDesc := desc, ctx := { s.ctx with fwDescAvailable := true } }
  else
    let c ← s.ctx.wlanTxDone b success
    { s with ctx := c }.reclaim fuel .down desc

/-- `wlan_tx_status`. -/
def wlanTxStatus (s : Firmware n) (i : Fin 5) : Option (Firmware n) := do
  let desc := (s.queue (.tx i)).head
  let super ← (s.mem desc).dataAddr
  let b ← superAt (getSuper super)
  if (s.mem desc).ctrl &&& ctrlFail ≠ 0 then
    let txfail := (s.mem desc).ctrl &&& ctrlTxfail ≠ 0
    let s := { s with mem := s.mem.upd desc fun d => { d with ctrl := d.ctrl &&& ~~~ctrlFail } }
    match wlanTxConsumeRetry (s.ctx.super b) with
    | some r =>
      let r := if !r.ampdu then { r with frameControl := r.frameControl ||| fctlRetry } else r
      let s := { s with ctx := s.ctx.setSuper b r }
      if txfail then return { s with mem := dmaRearm s.mem desc }
      else
        let (s, _) ← s.unlinkHead (.tx i)
        s.put fuel .retry desc
    | none => s.wlanTxEnd fuel i false
  else s.wlanTxEnd fuel i true

/-- A turn of the first loop of `handle_tx_completion`. -/
def handleTxCompletion (s : Firmware n) (i : Fin 5) : Option (Firmware n) :=
  if s.headHasBits (.tx i) ownBitsSw then s.wlanTxStatus fuel i else some s

/-- A turn of the second loop of `handle_tx_completion`. -/
def handleTxRetry (s : Firmware n) : Option (Firmware n) :=
  match s.unlinkHead .retry with
  | none => some s
  | some (s, desc) => s.wlanTxAll fuel desc

/-- A turn of `wlan_cab_flush_queue`. -/
def wlanCabFlushQueue (s : Firmware n) (v : Fin n) : Option (Firmware n) :=
  match s.unlinkHead (.cab v) with
  | none => some s
  | some (s, desc) => do
    let super ← (s.mem desc).dataAddr
    let b ← superAt (getSuper super)
    let r := s.ctx.super b
    let r := if (s.queue (.cab v)).head ≠ (s.queue (.cab v)).terminator then
      { r with frameControl := r.frameControl ||| fctlMoredata }
      else { r with frameControl := r.frameControl &&& ~~~fctlMoredata }
    let s := { s with ctx := s.ctx.setSuper b r }
    s.wlanTxAll fuel desc

/-- `usb_status_in`, with `tlen` bytes of answers in the block. -/
def statusIn (s : Firmware n) (tlen : BitVec 16) : Option (Firmware n) :=
  if s.ctx.intDescAvailable then
    if tlen = BitVec.ofNat 16 intMagicHeaderSize then some s
    else
      let s := { s with ctx := { s.ctx with intDescAvailable := false } }
      let s := { s with mem := s.mem.upd s.intDesc fun d =>
        { d with ctrl := ctrlLsFsBits, totalLen := tlen, dataSize := tlen } }
      s.put fuel .up s.intDesc
  else some s

/-- `wlan_tx_fw`, for the frame `r` that its caller wrote to `b`. -/
def wlanTxFw (s : Firmware n) (b : Buffer) (r : Super) : Option (Firmware n) :=
  if s.ctx.fwDescAvailable then
    let s := { s with ctx := s.ctx.setSuper b r }
    let s := { s with ctx := { s.ctx with fwDescAvailable := false, fwDescData := some ⟨b, 0⟩ } }
    let s := { s with mem := s.mem.upd s.fwDesc fun _ =>
      { status := ownBitsSw, ctrl := ctrlLsFsBits, dataSize := r.len, totalLen := r.len,
        lastAddr := s.fwDesc, dataAddr := some ⟨b, 0⟩, nextAddr := s.fwDesc } }
    s.wlanTx fuel s.fwDesc
  else some s

/-- `wlan_mac_reset`, for the stuck frame `desc`. -/
def macResetKill (s : Firmware n) (desc : Addr) : Option (Firmware n) := do
  let super ← (s.mem desc).dataAddr
  let b ← superAt (getSuper super)
  let r := s.ctx.super b
  return { s with
    mem := s.mem.upd desc fun d =>
      { d with status := ownBitsSw, ctrl := (d.ctrl &&& ~~~ctrlFail) ||| ctrlBafail },
    ctx := s.ctx.setSuper b { r with cnt := BitVec.ofNat 8 txMaxRateTries,
                                     rix := BitVec.ofNat 8 txMaxRetryRates } }

end Firmware

/-! ## Steps -/

inductive Event (n : Nat)
  | download
  | upload
  | downloadException (target : Addr)
  | fixDownqueue (desc : Addr)
  | rx (keep : Bool)
  | txCompletion (i : Fin 5)
  | txRetry
  | cabFlush (v : Fin n)
  | statusIn (tlen : BitVec 16)
  | txFw (b : Buffer) (r : Super)
  | sendTxStatus
  | macReset (i : Fin 5) (desc : Addr)
  | device (a : Addr) (status ctrl dataSize totalLen : BitVec 16)
  | group (p : Place n) (desc : Addr)
  | write (b : Buffer) (r : Super)

open Firmware in
/-- The first twelve events are turns of the firmware. The hardware writes to descriptors, makes
one packet of two, and stores frames of the host. -/
def step (fuel : Nat) (s : Firmware n) : Event n → Option (Firmware n)
  | .download => s.handleDownload fuel
  | .upload => s.handleUpload fuel
  | .downloadException target => s.handleDownloadException fuel target
  | .fixDownqueue desc => some (s.fixDownqueue desc)
  | .rx keep => s.handleRx fuel keep
  | .txCompletion i => s.handleTxCompletion fuel i
  | .txRetry => s.handleTxRetry fuel
  | .cabFlush v => s.wlanCabFlushQueue fuel v
  | .statusIn tlen => s.statusIn fuel tlen
  | .txFw b r => s.wlanTxFw fuel b r
  | .sendTxStatus => some { s with ctx := s.ctx.sendBuffered }
  | .macReset _ desc => s.macResetKill desc
  | .device a status ctrl dataSize totalLen =>
    some { s with mem := s.mem.upd a fun d =>
      { d with status := status, ctrl := ctrl, dataSize := dataSize, totalLen := totalLen } }
  | .group _ desc =>
    some { s with mem := s.mem.upd desc fun d =>
      { d with lastAddr := (s.mem d.lastAddr).nextAddr } }
  | .write b r => some { s with ctx := s.ctx.setSuper b r }

/-- What the callers of the functions, the hardware and the host keep to. The host marks a frame
`cab` only for an interface that exists, which `wlan_tx` does not check. -/
def Allowed (s : Firmware n) : Event n → Prop
  | .fixDownqueue desc => Visited s.mem (s.queue .down) desc
  | .macReset i desc => Visited s.mem (s.queue (.tx i)) desc
  | .txFw b r => (b = .ba ∨ b = .cmd) ∧ r.cab = false ∧ isBackReq r.frameControl = false
  | .group p desc => (p = .down ∨ p = .rx) ∧ Visited s.mem (s.queue p) desc ∧
      (s.mem (s.mem desc).lastAddr).nextAddr ≠ (s.queue p).terminator ∧
      (s.mem (s.mem (s.mem desc).lastAddr).nextAddr).lastAddr =
        (s.mem (s.mem desc).lastAddr).nextAddr
  | .write b r => (∃ desc p, Visited s.mem (s.queue .down) desc ∧
      (s.mem desc).dataAddr = some p ∧ p.buffer = b) ∧ (r.cab = true → r.vifId.toNat < n)
  | _ => True

end DebianKernel.Carl9170
