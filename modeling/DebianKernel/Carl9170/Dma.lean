import DebianKernel.Lib.Chain
import Mathlib.Data.List.Nodup
import Mathlib.Logic.Function.Basic

/-!
# The DMA queues of the carl9170 firmware

`dma.c` and `dma.h`. A queue is a chain of descriptors from `head` to `terminator`. The
hardware follows the chain while the firmware puts packets at its end, so the terminator is
never replaced: the first descriptor of the packet is copied to it and becomes the next
terminator.

Results:
1. `dmaPut_eq`, `dmaReclaim_eq`: the memory after a packet was put into a queue or given back.
2. `Holds.put`, `Holds.reclaim`, `Holds.unlink`: what the queue holds then.
-/

namespace DebianKernel.Carl9170

open Chain

/-! ## Descriptors -/

/-- The places of `dma_mem` at which a descriptor is. -/
inductive Addr
  | null
  | terminator (i : Nat)
  | block (i : Nat)
  deriving DecidableEq, Repr

/-- A buffer of payload, and an offset in it. -/
structure DataAddr (β : Type) where
  buffer : β
  offset : Int
  deriving DecidableEq, Repr

/-- `struct dma_desc`. -/
structure Desc (β : Type) where
  status : BitVec 16
  ctrl : BitVec 16
  dataSize : BitVec 16
  totalLen : BitVec 16
  lastAddr : Addr
  dataAddr : Option (DataAddr β)
  nextAddr : Addr
  deriving DecidableEq, Repr

abbrev Heap (β : Type) := Addr → Desc β

/-- `struct dma_queue`. -/
structure Queue where
  head : Addr
  terminator : Addr
  deriving DecidableEq, Repr

def ownBits : BitVec 16 := 0x3
def ownBitsSw : BitVec 16 := 0x0
def ownBitsHw : BitVec 16 := 0x1

/-- `AR9170_BLOCK_SIZE`. -/
def blockSize : BitVec 16 := 256 + 64

variable {β : Type}

/-- An assignment to fields of the descriptor at `a`. -/
def Heap.upd (h : Heap β) (a : Addr) (f : Desc β → Desc β) : Heap β :=
  Function.update h a (f (h a))

/-- The links of the memory. -/
def next (h : Heap β) (a : Addr) : Addr := (h a).nextAddr

def clearDescriptor (d : Addr) : Desc β :=
  { status := ownBitsSw, ctrl := 0, dataSize := 0, totalLen := 0, lastAddr := d, dataAddr := none,
    nextAddr := d }

def fillDescriptor (d : Addr) (size : BitVec 16) (data : β) : Desc β :=
  { status := ownBitsSw, ctrl := 0, dataSize := size, totalLen := 0, lastAddr := d,
    dataAddr := some ⟨data, 0⟩, nextAddr := .null }

/-! ## The operations

The loops run over the descriptors of a packet. A loop that does not come to the last one has no
value for any fuel. -/

/-- The loop of `dma_reclaim`, with its assignments as `f`. -/
def walk (f : Addr → Desc β → Desc β) (last : Addr) : Nat → Heap β → Addr → Option (Heap β)
  | 0, _, _ => none
  | n + 1, h, tmpDesc =>
    let h := h.upd tmpDesc (f tmpDesc)
    if tmpDesc = last then some h else walk f last n h (h tmpDesc).nextAddr

/-- Steps 3 to 5 of `dma_put` and of `dma_reclaim`. -/
def exchange (status : BitVec 16 → BitVec 16) (h : Heap β) (q : Queue) (desc : Addr) :
    Heap β × Queue :=
  let tdesc := h desc
  let h := h.upd desc fun _ => clearDescriptor desc
  let h := h.upd q.terminator fun _ => { tdesc with status := status tdesc.status }
  let h := h.upd q.terminator fun d => { d with status := d.status ||| ownBitsHw }
  (h, { q with terminator := desc })

def reclaimMark (tmpDesc : Addr) (d : Desc β) : Desc β :=
  { d with status := ownBitsHw, ctrl := 0, totalLen := 0, dataSize := blockSize,
           lastAddr := tmpDesc }

def dmaReclaim (fuel : Nat) (h : Heap β) (q : Queue) (desc : Addr) : Option (Heap β × Queue) :=
  let last := (h desc).lastAddr
  (walk reclaimMark last fuel h desc).map fun h =>
    let h := h.upd last fun d => { d with nextAddr := desc }
    let h := h.upd desc fun d => { d with lastAddr := q.terminator }
    exchange (fun _ => 0) h q desc

/-- The loop of `dma_put`, which reads `desc` in each turn. -/
def putLoop (desc : Addr) : Nat → Heap β → Addr → Option (Heap β)
  | 0, _, _ => none
  | n + 1, h, tmpDesc =>
    let h := h.upd tmpDesc fun d =>
      { d with totalLen := (h desc).totalLen, status := ownBitsHw, lastAddr := (h desc).lastAddr }
    if (h desc).lastAddr = tmpDesc then some h else putLoop desc n h (h tmpDesc).nextAddr

def dmaPut (fuel : Nat) (h : Heap β) (q : Queue) (desc : Addr) : Option (Heap β × Queue) :=
  (putLoop desc fuel h desc).map fun h =>
    let h := h.upd (h desc).lastAddr fun d => { d with nextAddr := desc }
    let h := if (h desc).lastAddr = desc then
      h.upd desc fun d => { d with lastAddr := q.terminator } else h
    exchange (· &&& ~~~ownBits) h q desc

/-- `dma_unlink_head`: the memory, the queue and the first descriptor of the packet. -/
def dmaUnlinkHead (h : Heap β) (queue : Queue) : Option (Heap β × Queue × Addr) :=
  if queue.head = queue.terminator then none
  else
    let desc := queue.head
    let queue := { queue with head := (h (h desc).lastAddr).nextAddr }
    let h := h.upd (h desc).lastAddr fun d => { d with nextAddr := (h desc).lastAddr }
    let h := h.upd (h desc).lastAddr fun d => { d with lastAddr := (h desc).lastAddr }
    some (h, queue, desc)

def dmaDequeueNotBits (h : Heap β) (q : Queue) (bits : BitVec 16) :
    Option (Heap β × Queue × Addr) :=
  if (h q.head).status &&& ownBits ≠ bits then dmaUnlinkHead h q else none

/-- `dma_rearm`. -/
def dmaRearm (h : Heap β) (desc : Addr) : Heap β :=
  h.upd desc fun d => { d with status := (d.status &&& ~~~ownBits) ||| ownBitsHw }

/-! ## Packets and what a queue holds -/

/-- A packet that is in no queue: its descriptors are chained, and the first one names the
last. -/
structure Packet (h : Heap β) (d : Addr) (ds : List Addr) : Prop where
  chain : ∃ b, Path (next h) d (d :: ds) b
  last : (h d).lastAddr = ds.getLastD d
  nodup : (d :: ds).Nodup

/-- The first descriptor of `p` names the last one. -/
def NamesLast (h : Heap β) (p : List Addr) : Prop :=
  ∃ d ds, p = d :: ds ∧ (h d).lastAddr = ds.getLastD d

/-- The queue holds the packets `ps`, in this order. -/
structure Holds (h : Heap β) (q : Queue) (ps : List (List Addr)) : Prop where
  chain : Path (next h) q.head ps.flatten q.terminator
  last : ∀ p ∈ ps, NamesLast h p
  nodup : (ps.flatten ++ [q.terminator]).Nodup

/-- All descriptors of a queue. -/
def addrs (q : Queue) (ps : List (List Addr)) : List Addr := ps.flatten ++ [q.terminator]

/-- What the descriptors point to. -/
def payload (h : Heap β) (p : List Addr) : List (Option (DataAddr β)) :=
  p.map fun a => (h a).dataAddr

/-! ## The loops -/

theorem Heap.upd_self (h : Heap β) (a : Addr) (f : Desc β → Desc β) : h.upd a f a = f (h a) := by
  rw [Heap.upd, Function.update_self]

theorem Heap.upd_ne (h : Heap β) {a b : Addr} (hb : b ≠ a) (f : Desc β → Desc β) :
    h.upd a f b = h b := by
  rw [Heap.upd, Function.update_of_ne hb]

/-- The assignments of a loop, to all descriptors of a packet. -/
def mark (f : Addr → Desc β → Desc β) (l : List Addr) (h : Heap β) : Heap β :=
  fun a => if a ∈ l then f a (h a) else h a

theorem mark_of_mem {f : Addr → Desc β → Desc β} {l : List Addr} {a : Addr} (h : Heap β)
    (ha : a ∈ l) : mark f l h a = f a (h a) := if_pos ha

theorem mark_of_not_mem {f : Addr → Desc β → Desc β} {l : List Addr} {a : Addr} (h : Heap β)
    (ha : a ∉ l) : mark f l h a = h a := if_neg ha

theorem mark_cons {f : Addr → Desc β → Desc β} {p : Addr} {l : List Addr} (h : Heap β)
    (hp : p ∉ l) : mark f l (h.upd p (f p)) = mark f (p :: l) h := by
  funext a
  rcases eq_or_ne a p with rfl | hne
  · rw [mark_of_not_mem _ hp, Heap.upd_self, mark_of_mem _ List.mem_cons_self]
  · have hmem : a ∈ p :: l ↔ a ∈ l := by rw [List.mem_cons, or_iff_right hne]
    unfold mark
    simp only [hmem, Heap.upd_ne h hne]

theorem getLastD_mem_cons (d : Addr) (ds : List Addr) : ds.getLastD d ∈ d :: ds := by
  rw [List.getLastD_eq_getLast?]
  cases hlast : ds.getLast? with
  | none => exact List.mem_cons_self
  | some x => exact List.mem_cons_of_mem d (List.mem_of_getLast? hlast)

theorem exists_concat_getLastD (d : Addr) (ds : List Addr) :
    ∃ init, d :: ds = init ++ [ds.getLastD d] := by
  induction ds generalizing d with
  | nil => exact ⟨[], rfl⟩
  | cons x ds ih =>
    obtain ⟨init, hinit⟩ := ih x
    refine ⟨d :: init, ?_⟩
    rw [List.getLastD_cons, List.cons_append, ← hinit]

/-- A loop that keeps the links comes to the last descriptor. -/
theorem walk_eq {f : Addr → Desc β → Desc β} (hf : ∀ a d, (f a d).nextAddr = d.nextAddr)
    {fuel : Nat} {h : Heap β} {p b : Addr} {l : List Addr} (hpath : Path (next h) p (p :: l) b)
    (hnodup : (p :: l).Nodup) (hfuel : l.length < fuel) :
    walk f (l.getLastD p) fuel h p = some (mark f (p :: l) h) := by
  induction l generalizing p h fuel with
  | nil =>
    obtain ⟨n, rfl⟩ := Nat.exists_eq_succ_of_ne_zero (Nat.ne_of_gt hfuel)
    rw [walk, List.getLastD_nil, if_pos rfl, ← mark_cons h List.not_mem_nil]
    congr 1
  | cons x l ih =>
    obtain ⟨n, rfl⟩ := Nat.exists_eq_succ_of_ne_zero (Nat.ne_zero_of_lt hfuel)
    obtain ⟨hp, hnodup'⟩ := List.nodup_cons.mp hnodup
    have hlast : p ≠ l.getLastD x := fun heq => hp (heq ▸ getLastD_mem_cons x l)
    have hlinks : next (h.upd p (f p)) = next h := by
      funext a
      rcases eq_or_ne a p with rfl | hne
      · rw [next, Heap.upd_self, hf]
        rfl
      · rw [next, Heap.upd_ne h hne]
        rfl
    have hnext : (h.upd p (f p) p).nextAddr = x := by
      have heq := congrFun hlinks p
      exact heq.trans hpath.2.1
    rw [walk, List.getLastD_cons, if_neg hlast, hnext]
    rw [path_cons] at hpath
    have hx := hpath.2.1
    rw [hx, ← hlinks] at hpath
    rw [ih hpath.2 hnodup' (Nat.lt_of_succ_lt_succ hfuel), mark_cons h hp]

/-- The loop of `dma_put` writes the same values in each turn. -/
theorem putLoop_eq_walk {desc last : Addr} {total : BitVec 16} (fuel : Nat) (h : Heap β)
    (p : Addr) (htotal : (h desc).totalLen = total) (hlast : (h desc).lastAddr = last) :
    putLoop desc fuel h p = walk (fun _ d =>
      { d with totalLen := total, status := ownBitsHw, lastAddr := last }) last fuel h p := by
  induction fuel generalizing h p with
  | zero => rfl
  | succ n ih =>
    have hkeeps : ∀ h' : Heap β, h' = h.upd p (fun d =>
        { d with totalLen := total, status := ownBitsHw, lastAddr := last }) →
        (h' desc).totalLen = total ∧ (h' desc).lastAddr = last := by
      rintro _ rfl
      rcases eq_or_ne desc p with rfl | hne
      · rw [Heap.upd_self]
        exact ⟨rfl, rfl⟩
      · rw [Heap.upd_ne h hne]
        exact ⟨htotal, hlast⟩
    rw [putLoop, walk]
    simp only [htotal, hlast]
    obtain ⟨htotal', hlast'⟩ := hkeeps _ rfl
    simp only [hlast', eq_comm (a := last) (b := p)]
    split
    · rfl
    · exact ih _ _ htotal' hlast'

/-! ## The memory after an exchange -/

/-- The packet `d :: ds` behind the terminator `t`: what `d` had stands in `t`, `d` is blank, the
last descriptor leads to `d`. -/
def exchanged (f : Addr → Desc β → Desc β) (lastT : Addr) (h : Heap β) (t d : Addr)
    (ds : List Addr) : Heap β := fun a =>
  if a = t then
    { f d (h d) with status := ownBitsHw, lastAddr := lastT,
                     nextAddr := if ds = [] then d else (h d).nextAddr }
  else if a = d then clearDescriptor d
  else if a ∈ ds then
    { f a (h a) with nextAddr := if a = ds.getLastD d then d else (h a).nextAddr }
  else h a

section

variable {f : Addr → Desc β → Desc β} {lastT : Addr} {h : Heap β} {t d : Addr} {ds : List Addr}

theorem exchanged_terminator : exchanged f lastT h t d ds t =
    { f d (h d) with status := ownBitsHw, lastAddr := lastT,
                     nextAddr := if ds = [] then d else (h d).nextAddr } := if_pos rfl

theorem exchanged_first (hd : d ≠ t) : exchanged f lastT h t d ds d = clearDescriptor d := by
  rw [exchanged, if_neg hd, if_pos rfl]

theorem exchanged_inner {a : Addr} (ha : a ∈ ds) (hat : a ≠ t) (had : a ≠ d) :
    exchanged f lastT h t d ds a =
      { f a (h a) with nextAddr := if a = ds.getLastD d then d else (h a).nextAddr } := by
  rw [exchanged, if_neg hat, if_neg had, if_pos ha]

theorem exchanged_frame {a : Addr} (ha : a ∉ t :: d :: ds) :
    exchanged f lastT h t d ds a = h a := by
  rw [List.mem_cons, List.mem_cons, not_or, not_or] at ha
  rw [exchanged, if_neg ha.1, if_neg ha.2.1, if_neg ha.2.2]

end

theorem exchange_apply (status : BitVec 16 → BitVec 16) (h : Heap β) (q : Queue)
    (d a : Addr) : (exchange status h q d).1 a =
      if a = q.terminator then { h d with status := status (h d).status ||| ownBitsHw }
      else if a = d then clearDescriptor d else h a := by
  rw [exchange]
  dsimp only
  split
  · next ha => rw [ha, Heap.upd_self, Heap.upd_self]
  · next ha =>
    rw [Heap.upd_ne _ ha, Heap.upd_ne _ ha]
    split
    · next had => rw [had, Heap.upd_self]
    · next had => rw [Heap.upd_ne _ had]

theorem getLastD_eq_iff {d : Addr} {ds : List Addr} (hnodup : (d :: ds).Nodup) :
    ds.getLastD d = d ↔ ds = [] := by
  constructor
  · intro heq
    cases ds with
    | nil => rfl
    | cons x ds =>
      rw [List.getLastD_cons] at heq
      exact absurd (heq ▸ getLastD_mem_cons x ds) (List.nodup_cons.mp hnodup).1
  · rintro rfl
    rfl

/-- The memory once the descriptors of the packet are marked and its last one leads to `d`. -/
theorem upd_last_mark {f : Addr → Desc β → Desc β} {d : Addr} {ds : List Addr} (h : Heap β)
    {a : Addr} (ha : a ∈ d :: ds) :
    (mark f (d :: ds) h).upd (ds.getLastD d) (fun x => { x with nextAddr := d }) a =
      if a = ds.getLastD d then { f a (h a) with nextAddr := d } else f a (h a) := by
  split
  · next heq => rw [heq, Heap.upd_self, mark_of_mem h (getLastD_mem_cons d ds)]
  · next hne => rw [Heap.upd_ne _ hne, mark_of_mem h ha]

theorem upd_last_frame {f : Addr → Desc β → Desc β} {d : Addr} {ds : List Addr} (h : Heap β)
    {a : Addr} (ha : a ∉ d :: ds) :
    (mark f (d :: ds) h).upd (ds.getLastD d) (fun x => { x with nextAddr := d }) a = h a := by
  have hne : a ≠ ds.getLastD d := fun heq => ha (heq ▸ getLastD_mem_cons d ds)
  rw [Heap.upd_ne _ hne, mark_of_not_mem h ha]

/-- A packet is given back: its descriptors are packets of their own again. -/
theorem dmaReclaim_eq {h : Heap β} {q : Queue} {d : Addr} {ds : List Addr} {fuel : Nat}
    (hp : Packet h d ds) (ht : q.terminator ∉ d :: ds) (hfuel : ds.length < fuel) :
    dmaReclaim fuel h q d =
      some (exchanged reclaimMark q.terminator h q.terminator d ds, ⟨q.head, d⟩) := by
  obtain ⟨⟨b, hchain⟩, hlast, hnodup⟩ := hp
  have hwalk := walk_eq (f := reclaimMark) (fun _ _ => rfl) hchain hnodup hfuel
  have hd : d ≠ q.terminator := fun heq => ht (heq ▸ List.mem_cons_self)
  rw [dmaReclaim, hlast, hwalk, Option.map_some]
  refine congrArg some (Prod.ext (funext fun a => ?_) rfl)
  change (exchange _ _ q d).1 a = exchanged _ _ h q.terminator d ds a
  rw [exchange_apply]
  rcases eq_or_ne a q.terminator with rfl | hat
  · rw [if_pos rfl, exchanged_terminator, Heap.upd_self, upd_last_mark h List.mem_cons_self]
    simp only [eq_comm (a := d), getLastD_eq_iff hnodup]
    split <;> rfl
  · rw [if_neg hat]
    rcases eq_or_ne a d with rfl | had
    · rw [if_pos rfl, exchanged_first hd]
    · rw [if_neg had, Heap.upd_ne _ had]
      rcases Decidable.em (a ∈ ds) with hin | hin
      · rw [exchanged_inner hin hat had, upd_last_mark h (List.mem_cons_of_mem d hin)]
        split <;> rfl
      · have hframe : a ∉ d :: ds := by
          rw [List.mem_cons, not_or]
          exact ⟨had, hin⟩
        rw [upd_last_frame h hframe, exchanged_frame]
        rw [List.mem_cons, not_or]
        exact ⟨hat, hframe⟩

def putMark (last : Addr) (total : BitVec 16) (d : Desc β) : Desc β :=
  { d with totalLen := total, status := ownBitsHw, lastAddr := last }

/-- A packet is put into a queue: it stays one packet, its last descriptor is the same unless it
was the only one. -/
theorem dmaPut_eq {h : Heap β} {q : Queue} {d : Addr} {ds : List Addr} {fuel : Nat}
    (hp : Packet h d ds) (ht : q.terminator ∉ d :: ds) (hfuel : ds.length < fuel) :
    dmaPut fuel h q d = some (exchanged (fun _ => putMark (ds.getLastD d) (h d).totalLen)
      (if ds = [] then q.terminator else ds.getLastD d) h q.terminator d ds, ⟨q.head, d⟩) := by
  obtain ⟨⟨b, hchain⟩, hlast, hnodup⟩ := hp
  have hwalk := walk_eq (f := fun _ => putMark (ds.getLastD d) (h d).totalLen) (fun _ _ => rfl)
    hchain hnodup hfuel
  have hd : d ≠ q.terminator := fun heq => ht (heq ▸ List.mem_cons_self)
  have hloop : putLoop d fuel h d = some (mark (fun _ => putMark (ds.getLastD d) (h d).totalLen)
      (d :: ds) h) := (putLoop_eq_walk fuel h d rfl hlast).trans hwalk
  rw [dmaPut, hloop, Option.map_some]
  refine congrArg some (Prod.ext (funext fun a => ?_) rfl)
  have hlast' : (mark (fun _ => putMark (ds.getLastD d) (h d).totalLen) (d :: ds) h d).lastAddr =
      ds.getLastD d := by
    rw [mark_of_mem h List.mem_cons_self]
    rfl
  have hfirst : ((mark (fun _ => putMark (ds.getLastD d) (h d).totalLen) (d :: ds) h).upd
      (ds.getLastD d) (fun x => { x with nextAddr := d }) d).lastAddr = ds.getLastD d := by
    rw [upd_last_mark h List.mem_cons_self]
    split <;> rfl
  dsimp only
  rw [exchange_apply]
  simp only [hlast', hfirst, getLastD_eq_iff hnodup]
  have hstatus : ownBitsHw &&& ~~~ownBits ||| ownBitsHw = ownBitsHw := by decide
  rcases eq_or_ne a q.terminator with rfl | hat
  · rw [if_pos rfl, exchanged_terminator]
    rcases eq_or_ne ds [] with rfl | hds
    · simp only [if_true, Heap.upd_self, List.getLastD_nil, mark_of_mem h List.mem_cons_self,
        putMark, hstatus]
    · have hne : d ≠ ds.getLastD d := fun heq => hds ((getLastD_eq_iff hnodup).mp heq.symm)
      simp only [hds, if_false, upd_last_mark h List.mem_cons_self, hne, putMark, hstatus]
  · rw [if_neg hat]
    rcases eq_or_ne a d with rfl | had
    · rw [if_pos rfl, exchanged_first hd]
    · have hsame : (if ds = [] then ((mark (fun _ => putMark (ds.getLastD d) (h d).totalLen)
          (d :: ds) h).upd (ds.getLastD d) fun x => { x with nextAddr := d }).upd d
            fun x => { x with lastAddr := q.terminator }
          else (mark (fun _ => putMark (ds.getLastD d) (h d).totalLen) (d :: ds) h).upd
            (ds.getLastD d) fun x => { x with nextAddr := d }) a =
          ((mark (fun _ => putMark (ds.getLastD d) (h d).totalLen) (d :: ds) h).upd
            (ds.getLastD d) fun x => { x with nextAddr := d }) a := by
        split
        · exact Heap.upd_ne _ had _
        · rfl
      rw [if_neg had, hsame]
      rcases Decidable.em (a ∈ ds) with hin | hin
      · rw [exchanged_inner hin hat had, upd_last_mark h (List.mem_cons_of_mem d hin)]
        split <;> rfl
      · have hframe : a ∉ d :: ds := by
          rw [List.mem_cons, not_or]
          exact ⟨had, hin⟩
        rw [upd_last_frame h hframe, exchanged_frame]
        rw [List.mem_cons, not_or]
        exact ⟨hat, hframe⟩

/-! ## What a queue holds afterwards -/

/-- Only the links matter. -/
theorem Holds.congr {h h' : Heap β} {q : Queue} {ps : List (List Addr)} (hq : Holds h q ps)
    (hnext : ∀ a ∈ addrs q ps, (h' a).nextAddr = (h a).nextAddr)
    (hlast : ∀ a ∈ addrs q ps, (h' a).lastAddr = (h a).lastAddr) : Holds h' q ps := by
  refine ⟨(path_congr fun a ha => ?_).mp hq.chain, fun p hp => ?_, hq.nodup⟩
  · rw [next, next, hnext a (List.mem_append_left _ ha)]
  · obtain ⟨d, ds, rfl, heq⟩ := hq.last p hp
    have hd : d ∈ ps.flatten := List.mem_flatten_of_mem hp List.mem_cons_self
    exact ⟨d, ds, rfl, by rw [hlast d (List.mem_append_left _ hd), heq]⟩

theorem Packet.congr {h h' : Heap β} {d : Addr} {ds : List Addr} (hp : Packet h d ds)
    (hnext : ∀ a ∈ d :: ds, (h' a).nextAddr = (h a).nextAddr)
    (hlast : (h' d).lastAddr = (h d).lastAddr) : Packet h' d ds := by
  obtain ⟨⟨b, hchain⟩, heq, hnodup⟩ := hp
  refine ⟨⟨b, (path_congr fun a ha => ?_).mp hchain⟩, hlast.trans heq, hnodup⟩
  rw [next, next, hnext a ha]

/-- A packet that is in no queue can be put into `q`. -/
structure Apart (d : Addr) (ds : List Addr) (q : Queue) (ps : List (List Addr)) : Prop where
  disjoint : ∀ a ∈ d :: ds, a ∉ addrs q ps

theorem Apart.terminator {d : Addr} {ds : List Addr} {q : Queue} {ps : List (List Addr)}
    (h : Apart d ds q ps) : q.terminator ∉ d :: ds :=
  fun hmem => h.disjoint _ hmem (List.mem_append_right _ List.mem_cons_self)

section

variable {f : Addr → Desc β → Desc β} {lastT : Addr} {h : Heap β} {q : Queue} {d : Addr}
  {ds : List Addr} {ps : List (List Addr)}

/-- The packet is at the end of the chain. -/
theorem exchanged_chain (hq : Holds h q ps) (hp : Packet h d ds) (hapart : Apart d ds q ps) :
    Path (next (exchanged f lastT h q.terminator d ds)) q.head (ps.flatten ++ q.terminator :: ds)
      d := by
  have ht := hapart.terminator
  obtain ⟨⟨b, hchain⟩, -, hnodup⟩ := hp
  have hold : ∀ a ∈ ps.flatten, next h a = next (exchanged f lastT h q.terminator d ds) a := by
    intro a ha
    have hout : a ∉ q.terminator :: d :: ds := by
      rw [List.mem_cons, not_or]
      refine ⟨?_, fun hmem => hapart.disjoint a hmem (List.mem_append_left _ ha)⟩
      rintro rfl
      exact (List.nodup_append.mp hq.nodup).2.2 _ ha _ List.mem_cons_self rfl
    rw [next, next, exchanged_frame hout]
  rw [path_append]
  refine ⟨q.terminator, (path_congr hold).mp hq.chain, rfl, ?_⟩
  rw [next, exchanged_terminator]
  rcases List.eq_nil_or_concat' ds with rfl | ⟨init, x, rfl⟩
  · rw [path_nil, if_pos rfl]
  · have hne : init ++ [x] ≠ [] := List.append_ne_nil_of_right_ne_nil _ (List.cons_ne_nil x [])
    obtain ⟨-, hrest⟩ := hchain
    obtain ⟨hd, hnodup'⟩ := List.nodup_cons.mp hnodup
    have hlast : (init ++ [x]).getLastD d = x := by
      rw [List.getLastD_eq_getLast?, List.getLast?_append_of_ne_nil _ (List.cons_ne_nil x [])]
      rfl
    have hinner : ∀ a ∈ init ++ [x], exchanged f lastT h q.terminator d (init ++ [x]) a =
        { f a (h a) with nextAddr := if a = x then d else (h a).nextAddr } := by
      intro a ha
      have hat : a ≠ q.terminator := fun heq => ht (heq ▸ List.mem_cons_of_mem d ha)
      have had : a ≠ d := fun heq => hd (heq ▸ ha)
      rw [exchanged_inner ha hat had, hlast]
    have hx : x ∉ init := by
      intro hmem
      exact (List.nodup_append.mp hnodup').2.2 _ hmem _ List.mem_cons_self rfl
    rw [if_neg hne]
    refine path_redirect hrest (fun a ha => ?_) ?_
    · have hax : a ≠ x := fun heq => hx (heq ▸ ha)
      rw [next, next, hinner a (List.mem_append_left _ ha), if_neg hax]
    · rw [next, hinner x (List.mem_append_right _ List.mem_cons_self), if_pos rfl]

theorem exchanged_nodup (hq : Holds h q ps) (hp : Packet h d ds) (hapart : Apart d ds q ps) :
    ((ps.flatten ++ q.terminator :: ds) ++ [d]).Nodup := by
  have hperm : ((ps.flatten ++ q.terminator :: ds) ++ [d]).Perm (addrs q ps ++ d :: ds) := by
    rw [addrs, List.append_assoc, List.append_assoc]
    exact (List.Perm.cons _ (List.perm_append_singleton d ds)).append_left ps.flatten
  rw [hperm.nodup_iff, List.nodup_append]
  exact ⟨hq.nodup, hp.nodup, fun a ha b hb heq => hapart.disjoint b hb (heq ▸ ha)⟩

/-- The packets that were in the queue before stay as they are. -/
theorem exchanged_namesLast (hq : Holds h q ps) (hapart : Apart d ds q ps) {p : List Addr}
    (hp : p ∈ ps) : NamesLast (exchanged f lastT h q.terminator d ds) p := by
  obtain ⟨e, es, rfl, hlast⟩ := hq.last p hp
  refine ⟨e, es, rfl, ?_⟩
  have hmem : e ∈ ps.flatten := List.mem_flatten_of_mem hp List.mem_cons_self
  have hout : e ∉ q.terminator :: d :: ds := by
    rw [List.mem_cons, not_or]
    refine ⟨?_, fun hin => hapart.disjoint e hin (List.mem_append_left _ hmem)⟩
    rintro rfl
    exact (List.nodup_append.mp hq.nodup).2.2 _ hmem _ List.mem_cons_self rfl
  rw [exchanged_frame hout, hlast]

theorem flatten_map_singleton (l : List Addr) : (l.map fun a => [a]).flatten = l := by
  induction l with
  | nil => rfl
  | cons a l ih => rw [List.map_cons, List.flatten_cons, ih]; rfl

/-- What `dma_put` leaves: the packet stands whole at the end of the queue, and the hardware owns
all of it. -/
theorem Holds.put (hq : Holds h q ps) (hp : Packet h d ds) (hapart : Apart d ds q ps) {fuel : Nat}
    (hfuel : ds.length < fuel) : ∃ h', dmaPut fuel h q d = some (h', ⟨q.head, d⟩) ∧
      Holds h' ⟨q.head, d⟩ (ps ++ [q.terminator :: ds]) ∧
      (h' q.terminator).dataAddr = (h d).dataAddr ∧ (∀ a ∈ ds, (h' a).dataAddr = (h a).dataAddr) ∧
      (∀ a ∈ q.terminator :: ds, (h' a).status = ownBitsHw) ∧ h' d = clearDescriptor d ∧
      ∀ a ∉ q.terminator :: d :: ds, h' a = h a := by
  have ht := hapart.terminator
  have hd : d ≠ q.terminator := fun heq => ht (heq ▸ List.mem_cons_self)
  have hinner : ∀ a ∈ ds, a ≠ q.terminator ∧ a ≠ d := by
    intro a ha
    exact ⟨fun heq => ht (heq ▸ List.mem_cons_of_mem d ha),
      fun heq => (List.nodup_cons.mp hp.nodup).1 (heq ▸ ha)⟩
  have hflat : (ps ++ [q.terminator :: ds]).flatten = ps.flatten ++ q.terminator :: ds := by
    rw [List.flatten_append, List.flatten_singleton]
  refine ⟨_, dmaPut_eq hp ht hfuel, ⟨?_, fun p hmem => ?_, ?_⟩, ?_, fun a ha => ?_, fun a ha => ?_,
    exchanged_first hd, fun a ha => exchanged_frame ha⟩
  · rw [hflat]
    exact exchanged_chain hq hp hapart
  · rcases List.mem_append.mp hmem with hmem | hmem
    · exact exchanged_namesLast hq hapart hmem
    · refine ⟨q.terminator, ds, List.mem_singleton.mp hmem, ?_⟩
      rw [exchanged_terminator]
      dsimp only
      split
      · next hds => rw [hds]; rfl
      · next hds =>
        obtain ⟨x, l, rfl⟩ := List.exists_cons_of_ne_nil hds
        rw [List.getLastD_cons, List.getLastD_cons]
  · rw [hflat]
    exact exchanged_nodup hq hp hapart
  · rw [exchanged_terminator]
    rfl
  · rw [exchanged_inner ha (hinner a ha).1 (hinner a ha).2]
    rfl
  · rcases List.mem_cons.mp ha with rfl | ha
    · rw [exchanged_terminator]
    · rw [exchanged_inner ha (hinner a ha).1 (hinner a ha).2]
      rfl

/-- What `dma_reclaim` leaves: the descriptors of the packet stand at the end of the queue, each
on its own. -/
theorem Holds.reclaim (hq : Holds h q ps) (hp : Packet h d ds) (hapart : Apart d ds q ps)
    {fuel : Nat} (hfuel : ds.length < fuel) :
    ∃ h', dmaReclaim fuel h q d = some (h', ⟨q.head, d⟩) ∧
      Holds h' ⟨q.head, d⟩ (ps ++ (q.terminator :: ds).map fun a => [a]) ∧
      (h' q.terminator).dataAddr = (h d).dataAddr ∧ (∀ a ∈ ds, (h' a).dataAddr = (h a).dataAddr) ∧
      (∀ a ∈ q.terminator :: ds, (h' a).status = ownBitsHw ∧ (h' a).dataSize = blockSize) ∧
      h' d = clearDescriptor d ∧ ∀ a ∉ q.terminator :: d :: ds, h' a = h a := by
  have ht := hapart.terminator
  have hd : d ≠ q.terminator := fun heq => ht (heq ▸ List.mem_cons_self)
  have hinner : ∀ a ∈ ds, a ≠ q.terminator ∧ a ≠ d := by
    intro a ha
    exact ⟨fun heq => ht (heq ▸ List.mem_cons_of_mem d ha),
      fun heq => (List.nodup_cons.mp hp.nodup).1 (heq ▸ ha)⟩
  have hflat : (ps ++ (q.terminator :: ds).map fun a => [a]).flatten =
      ps.flatten ++ q.terminator :: ds := by
    rw [List.flatten_append, flatten_map_singleton]
  refine ⟨_, dmaReclaim_eq hp ht hfuel, ⟨?_, fun p hmem => ?_, ?_⟩, ?_, fun a ha => ?_,
    fun a ha => ?_, exchanged_first hd, fun a ha => exchanged_frame ha⟩
  · rw [hflat]
    exact exchanged_chain hq hp hapart
  · rcases List.mem_append.mp hmem with hmem | hmem
    · exact exchanged_namesLast hq hapart hmem
    · obtain ⟨a, ha, rfl⟩ := List.mem_map.mp hmem
      refine ⟨a, [], rfl, ?_⟩
      rcases List.mem_cons.mp ha with rfl | ha
      · rw [exchanged_terminator]
        rfl
      · rw [exchanged_inner ha (hinner a ha).1 (hinner a ha).2]
        rfl
  · rw [hflat]
    exact exchanged_nodup hq hp hapart
  · rw [exchanged_terminator]
    rfl
  · rw [exchanged_inner ha (hinner a ha).1 (hinner a ha).2]
    rfl
  · rcases List.mem_cons.mp ha with rfl | ha
    · rw [exchanged_terminator]
      exact ⟨rfl, rfl⟩
    · rw [exchanged_inner ha (hinner a ha).1 (hinner a ha).2]
      exact ⟨rfl, rfl⟩

/-! ## Taking the first packet -/

/-- The memory once the packet that ends with `l` is taken out. -/
def unlinked (h : Heap β) (l : Addr) : Heap β :=
  h.upd l fun x => { x with nextAddr := l, lastAddr := l }

theorem dmaUnlinkHead_eq (hq : Holds h q ((d :: ds) :: ps)) :
    dmaUnlinkHead h q = some (unlinked h (ds.getLastD d),
      ⟨next h (ds.getLastD d), q.terminator⟩, d) := by
  have hhead : q.head = d := hq.chain.head_eq
  have hne : d ≠ q.terminator := by
    rintro heq
    have hmem : d ∈ ((d :: ds) :: ps).flatten := List.mem_cons_self
    exact (List.nodup_append.mp hq.nodup).2.2 _ hmem _ List.mem_cons_self heq
  obtain ⟨e, es, heq, hlast⟩ := hq.last _ List.mem_cons_self
  obtain ⟨rfl, rfl⟩ := List.cons.inj heq
  have hkeep : ∀ l : Addr, ((h.upd l fun x => { x with nextAddr := l }) d).lastAddr =
      (h d).lastAddr := by
    intro l
    rcases eq_or_ne d l with rfl | hdl
    · rw [Heap.upd_self]
    · rw [Heap.upd_ne h hdl]
  rw [dmaUnlinkHead, hhead, if_neg hne]
  dsimp only
  rw [hlast, hkeep, hlast]
  refine congrArg some (Prod.ext (funext fun a => ?_) rfl)
  dsimp only
  rcases eq_or_ne a (ds.getLastD d) with rfl | ha
  · rw [Heap.upd_self, Heap.upd_self, unlinked, Heap.upd_self]
  · rw [Heap.upd_ne _ ha, Heap.upd_ne _ ha, unlinked, Heap.upd_ne _ ha]

/-- What `dma_unlink_head` leaves: the first packet is out of the queue and closed in itself, the
others stay. -/
theorem Holds.unlink (hq : Holds h q ((d :: ds) :: ps)) :
    ∃ h' q', dmaUnlinkHead h q = some (h', q', d) ∧ q'.terminator = q.terminator ∧
      Holds h' q' ps ∧ Packet h' d ds ∧ Apart d ds q' ps ∧
      (∀ a, (h' a).dataAddr = (h a).dataAddr ∧ (h' a).status = (h a).status) ∧
      ∀ a ∉ d :: ds, h' a = h a := by
  have hl : ds.getLastD d ∈ d :: ds := getLastD_mem_cons d ds
  have hframe : ∀ a ∉ d :: ds, unlinked h (ds.getLastD d) a = h a := by
    intro a ha
    have hne : a ≠ ds.getLastD d := by
      rintro rfl
      exact ha hl
    exact Heap.upd_ne h hne _
  have hnodup := hq.nodup
  have hchain := hq.chain
  rw [List.flatten_cons] at hnodup hchain
  rw [List.append_assoc, List.nodup_append] at hnodup
  obtain ⟨hpacket, hrest, hcross⟩ := hnodup
  obtain ⟨c, hfirst, hothers⟩ := path_append.mp hchain
  have hout : ∀ a ∈ addrs q ps, a ∉ d :: ds := fun a ha hmem => hcross a hmem a ha rfl
  obtain ⟨init, hinit⟩ := exists_concat_getLastD d ds
  have hc : next h (ds.getLastD d) = c := by
    rw [hinit, path_concat] at hfirst
    exact hfirst.2
  have hpath : Path (next (unlinked h (ds.getLastD d))) d (d :: ds) (ds.getLastD d) := by
    have hd : q.head = d := hfirst.head_eq
    have hlast : ds.getLastD d ∉ init := by
      intro hmem
      rw [hinit] at hpacket
      exact (List.nodup_append.mp hpacket).2.2 _ hmem _ List.mem_cons_self rfl
    rw [hd, hinit] at hfirst
    rw [hinit]
    refine path_redirect hfirst (fun a ha => ?_) ?_
    · have hne : a ≠ ds.getLastD d := by
        rintro rfl
        exact hlast ha
      rw [next, next, unlinked, Heap.upd_ne h hne]
    · rw [next, unlinked, Heap.upd_self]
  obtain ⟨e, es, heq, hlast⟩ := hq.last _ List.mem_cons_self
  obtain ⟨rfl, rfl⟩ := List.cons.inj heq
  refine ⟨_, _, dmaUnlinkHead_eq hq, rfl, ?_, ⟨⟨_, hpath⟩, ?_, hpacket⟩,
    ⟨fun a ha hmem => hout a hmem ha⟩, fun a => ?_, hframe⟩
  · refine Holds.congr ⟨?_, fun p hp => hq.last p (List.mem_cons_of_mem _ hp), hrest⟩
      (fun a ha => by rw [hframe a (hout a ha)]) fun a ha => by rw [hframe a (hout a ha)]
    rw [hc]
    exact hothers
  · rcases eq_or_ne d (ds.getLastD d) with hdl | hdl
    · rw [unlinked, ← hdl, Heap.upd_self]
    · rw [unlinked, Heap.upd_ne h hdl, hlast]
  · rcases eq_or_ne a (ds.getLastD d) with rfl | ha
    · rw [unlinked, Heap.upd_self]
      exact ⟨rfl, rfl⟩
    · rw [unlinked, Heap.upd_ne h ha]
      exact ⟨rfl, rfl⟩

/-- An empty queue has no packet. -/
theorem Holds.unlink_nil (hq : Holds h q []) : dmaUnlinkHead h q = none :=
  if_pos hq.chain

end

end DebianKernel.Carl9170
