import DebianKernel.Carl9170.Traffic

/-!
# The queues of the carl9170 firmware as lists of frames

What the queues are for: a place holds frames, a frame is the list of the buffers it is stored in.
`Rel U s A ps hand`: the memory of `s` represents the frames of `A`, with the packets `hand`
taken out of their queues.

Results: `Rel.unlink`, `Rel.put`, `Rel.reclaim` and the lemmas on single assignments.
-/

namespace DebianKernel.Carl9170

open Shares

abbrev Frame := List Pointer

/-- The frames at every place. -/
structure Board (n : Nat) where
  frames : Place n → List Frame
  ctx : Context n

variable {n : Nat}

namespace Board

def drop (A : Board n) (p : Place n) (rest : List Frame) : Board n :=
  { A with frames := Function.update A.frames p rest }

def put (A : Board n) (p : Place n) (f : Frame) : Board n :=
  { A with frames := Function.update A.frames p (A.frames p ++ [f]) }

/-- The buffers of a frame become free. -/
def free (A : Board n) (p : Place n) (f : Frame) : Board n :=
  { A with frames := Function.update A.frames p (A.frames p ++ f.map fun x => [x]) }

end Board

/-- The descriptors that the firmware keeps for itself. -/
def held (s : Firmware n) : Loose :=
  (if s.ctx.intDescAvailable then [(s.intDesc, [])] else []) ++
    if s.ctx.fwDescAvailable then [(s.fwDesc, [])] else []

/-- A packet that is in no queue, and the frame that is stored in it. -/
structure Hand where
  first : Addr
  others : List Addr
  frame : Frame

structure Rel (U : Multiset Addr) (s : Firmware n) (A : Board n) (ps : Place n → List (List Addr))
    (hand : List Hand) : Prop where
  sound : Sound U s.mem s.queue ps (hand.map (fun x => (x.first, x.others)) ++ held s)
  frames : ∀ p, (ps p).map (payload s.mem) = (A.frames p).map (List.map some)
  hand : ∀ x ∈ hand, payload s.mem (x.first :: x.others) = x.frame.map some
  ctx : s.ctx = A.ctx
  rsp : s.ctx.intDescAvailable → (s.mem s.intDesc).dataAddr = some ⟨.rsp, 0⟩
  closed : ∀ pk ∈ ps .down, ∀ a ∈ pk.tail, (s.mem a).lastAddr = a

variable {U : Multiset Addr} {s : Firmware n} {A : Board n} {ps : Place n → List (List Addr)}
  {hand : List Hand} {p : Place n} {d : Addr} {ds : List Addr} {f : Frame} {rest : List Frame}
  {fuel : Nat}

/-! ## Where the descriptors of a packet are not -/

theorem mem_addrs {q : Queue} {l : List (List Addr)} {pk : List Addr} {a : Addr} (hpk : pk ∈ l)
    (ha : a ∈ pk) : a ∈ addrs q l :=
  List.mem_append_left _ (List.mem_flatten_of_mem hpk ha)

theorem Sound.member_outside {β ι : Type} [Fintype ι] [DecidableEq ι] {h : Heap β}
    {q : ι → Queue} {ps : ι → List (List Addr)} {loose : Loose} {i j : ι} {pk : List Addr}
    {a : Addr} (hs : Sound U h q ps ((d, ds) :: loose)) (hpk : pk ∈ ps j) (ha : a ∈ pk) :
    a ∉ (q i).terminator :: d :: ds := by
  intro hmem
  have hin : a ∈ addrs (q j) (ps j) := mem_addrs hpk ha
  rcases eq_or_ne j i with rfl | hj
  · rcases List.mem_cons.mp hmem with rfl | hmem
    · have hnodup := (hs.holds j).nodup
      exact (List.nodup_append.mp hnodup).2.2 _ (List.mem_flatten_of_mem hpk ha) _
        List.mem_cons_self rfl
    · exact (hs.apart List.mem_cons_self j).disjoint a hmem hin
  · exact hs.changed_apart a hmem j hj hin

theorem Sound.loose_outside {β ι : Type} [Fintype ι] {h : Heap β} {q : ι → Queue}
    {ps : ι → List (List Addr)} {loose : Loose} {i : ι} {x : Addr × List Addr} {a : Addr}
    (hs : Sound U h q ps ((d, ds) :: loose)) (hx : x ∈ loose) (ha : a ∈ x.1 :: x.2) :
    a ∉ (q i).terminator :: d :: ds := by
  intro hmem
  rcases List.mem_cons.mp hmem with rfl | hmem
  · exact (hs.apart (List.mem_cons_of_mem _ hx) i).terminator ha
  · exact hs.loose_disjoint hx hmem ha

theorem intDesc_mem_held (h : s.ctx.intDescAvailable) : (s.intDesc, []) ∈ held s := by
  rw [held, if_pos h]
  exact List.mem_cons_self

theorem payload_congr {β : Type} {h h' : Heap β} {pk : List Addr}
    (heq : ∀ a ∈ pk, (h' a).dataAddr = (h a).dataAddr) : payload h' pk = payload h pk :=
  List.map_congr_left heq

theorem payload_append {β : Type} (h : Heap β) (pk pk' : List Addr) :
    payload h (pk ++ pk') = payload h pk ++ payload h pk' := List.map_append

/-! ## A packet leaves a queue or comes to one -/

theorem Rel.head_packet (h : Rel U s A ps hand) (hf : A.frames p = f :: rest) :
    ∃ ds ps', ps p = ((s.queue p).head :: ds) :: ps' ∧
      payload s.mem ((s.queue p).head :: ds) = f.map some ∧
      ps'.map (payload s.mem) = rest.map (List.map some) ∧
      (s.queue p).head ≠ (s.queue p).terminator := by
  have hframes := h.frames p
  rw [hf, List.map_cons] at hframes
  obtain ⟨pk, ps', hps, hpk, hrest⟩ := List.map_eq_cons_iff.mp hframes
  have hhold := h.sound.holds p
  rw [hps] at hhold
  obtain ⟨d, ds, rfl, -⟩ := hhold.last pk List.mem_cons_self
  have hhead : (s.queue p).head = d := hhold.chain.head_eq
  have hne : d ≠ (s.queue p).terminator := fun heq =>
    (List.nodup_append.mp hhold.nodup).2.2 d List.mem_cons_self _ List.mem_cons_self heq
  rw [hhead]
  exact ⟨ds, ps', hps, hpk, hrest, hne⟩

theorem Rel.unlink_nil (h : Rel U s A ps hand) (hf : A.frames p = []) :
    s.unlinkHead p = none := by
  have hps : ps p = [] := by
    have hframes := h.frames p
    rw [hf, List.map_nil] at hframes
    exact List.map_eq_nil_iff.mp hframes
  have hhold := h.sound.holds p
  rw [hps] at hhold
  rw [Firmware.unlinkHead, hhold.unlink_nil]
  rfl

/-- What `dma_unlink_head` does to the state. -/
structure Unlinked (U : Multiset Addr) (s s' : Firmware n) (A : Board n) (p : Place n)
    (d : Addr) (f : Frame) (rest : List Frame) : Prop where
  rel : ∃ ps' ds, Rel U s' (A.drop p rest) ps' [⟨d, ds, f⟩]
  ctx : s'.ctx = s.ctx
  data : (s'.mem d).dataAddr = (s.mem d).dataAddr
  head : d = (s.queue p).head

theorem Rel.unlink (h : Rel U s A ps []) (hf : A.frames p = f :: rest) :
    ∃ s' d, s.unlinkHead p = some (s', d) ∧ Unlinked U s s' A p d f rest := by
  obtain ⟨ds, ps', hps, hpk, hrest, -⟩ := h.head_packet hf
  have hsound : Sound U s.mem s.queue ps (held s) := h.sound
  obtain ⟨mem', q', heq, hs', hdata, hframe⟩ := hsound.unlink hps
  rw [Firmware.unlinkHead, heq]
  have hcopy : payload mem' = payload s.mem := funext fun pk =>
    payload_congr fun a _ => (hdata a).1
  refine ⟨_, _, rfl, ⟨Function.update ps p ps', ds, hs', fun j => ?_, fun x hx => ?_, h.ctx,
    fun hav => ?_, fun pk hpk' a ha => ?_⟩, rfl, (hdata _).1, rfl⟩
  · change (Function.update ps p ps' j).map (payload mem') =
      (Function.update A.frames p rest j).map (List.map some)
    rw [hcopy]
    rcases eq_or_ne j p with rfl | hj
    · rw [Function.update_self, Function.update_self, hrest]
    · rw [Function.update_of_ne hj, Function.update_of_ne hj, h.frames j]
  · obtain rfl := List.mem_singleton.mp hx
    exact (congrFun hcopy _).trans hpk
  · exact (hdata _).1.trans (h.rsp hav)
  · -- A packet of the down queue that is not taken out keeps its links.
    have hold : pk ∈ ps .down ∧ ∀ a ∈ pk, a ∉ (s.queue p).head :: ds := by
      have hnodup := (h.sound.holds p).nodup
      rcases eq_or_ne (Place.down : Place n) p with rfl | hj
      · rw [Function.update_self] at hpk'
        rw [hps, List.flatten_cons, List.append_assoc, List.nodup_append] at hnodup
        refine ⟨by rw [hps]; exact List.mem_cons_of_mem _ hpk', fun a ha hmem => ?_⟩
        exact hnodup.2.2 a hmem a (List.mem_append_left _ (List.mem_flatten_of_mem hpk' ha)) rfl
      · rw [Function.update_of_ne hj] at hpk'
        refine ⟨hpk', fun a ha hmem => ?_⟩
        have hin : a ∈ addrs (s.queue p) (ps p) := by
          rw [hps]
          exact mem_addrs List.mem_cons_self hmem
        exact hsound.queues_disjoint hj (mem_addrs hpk' ha) hin
    change (mem' a).lastAddr = a
    rw [hframe a (hold.2 a (List.mem_of_mem_tail ha))]
    exact h.closed pk hold.1 a ha

/-- The memory behind a packet that comes to queue `p`. -/
theorem Rel.arrive {s' : Firmware n} {A' : Board n} {new : List (List Addr)} {mem' : Heap Buffer}
    (h : Rel U s A ps [⟨d, ds, f⟩])
    (hs' : Sound U mem' (Function.update s.queue p ⟨(s.queue p).head, d⟩)
      (Function.update ps p (ps p ++ new)) (held s))
    (hframe : ∀ a ∉ (s.queue p).terminator :: d :: ds, mem' a = s.mem a)
    (hnew : (ps p ++ new).map (payload mem') = (A'.frames p).map (List.map some))
    (hA : ∀ j ≠ p, A'.frames j = A.frames j) (hctx : A'.ctx = A.ctx)
    (hclosed : p = .down → ∀ pk ∈ new, pk.tail = [])
    (heq : s' = { s with mem := mem',
                         queue := Function.update s.queue p ⟨(s.queue p).head, d⟩ }) :
    Rel U s' A' (Function.update ps p (ps p ++ new)) [] := by
  subst heq
  have hsound : Sound U s.mem s.queue ps ((d, ds) :: held s) := h.sound
  have hstay : ∀ j, ∀ pk ∈ ps j, ∀ a ∈ pk, mem' a = s.mem a := fun j pk hpk a ha =>
    hframe a (hsound.member_outside hpk ha)
  refine ⟨hs', fun j => ?_, fun x hx => absurd hx List.not_mem_nil, h.ctx.trans hctx.symm,
    fun hav => ?_, fun pk hpk a ha => ?_⟩
  · rcases eq_or_ne j p with rfl | hj
    · rw [Function.update_self]
      exact hnew
    · rw [Function.update_of_ne hj, hA j hj, ← h.frames j]
      exact List.map_congr_left fun pk hpk =>
        payload_congr fun a ha => congrArg Desc.dataAddr (hstay j pk hpk a ha)
  · have hout := hsound.loose_outside (i := p) (intDesc_mem_held hav) List.mem_cons_self
    change (mem' s.intDesc).dataAddr = _
    rw [hframe _ hout]
    exact h.rsp hav
  · change (mem' a).lastAddr = a
    rcases eq_or_ne (Place.down : Place n) p with rfl | hj
    · rw [Function.update_self] at hpk
      rcases List.mem_append.mp hpk with hpk | hpk
      · rw [hstay _ pk hpk a (List.mem_of_mem_tail ha)]
        exact h.closed pk hpk a ha
      · rw [hclosed rfl pk hpk] at ha
        exact absurd ha List.not_mem_nil
    · rw [Function.update_of_ne hj] at hpk
      rw [hstay _ pk hpk a (List.mem_of_mem_tail ha)]
      exact h.closed pk hpk a ha

/-- The packets of queue `p` are represented as before. -/
theorem Rel.stay {mem' : Heap Buffer} (h : Rel U s A ps [⟨d, ds, f⟩])
    (hframe : ∀ a ∉ (s.queue p).terminator :: d :: ds, mem' a = s.mem a) :
    (ps p).map (payload mem') = (A.frames p).map (List.map some) := by
  have hsound : Sound U s.mem s.queue ps ((d, ds) :: held s) := h.sound
  rw [← h.frames p]
  exact List.map_congr_left fun pk hpk => payload_congr fun a ha => by
    rw [hframe a (hsound.member_outside hpk ha)]

theorem Rel.put (h : Rel U s A ps [⟨d, ds, f⟩]) (hfuel : U.card ≤ fuel) (hp : p ≠ .down) :
    ∃ s' ps', s.put fuel p d = some s' ∧ Rel U s' (A.put p f) ps' [] := by
  have hsound : Sound U s.mem s.queue ps ((d, ds) :: held s) := h.sound
  obtain ⟨mem', heq, hs', hdata, hframe⟩ := hsound.put hfuel p
  rw [Firmware.put, heq]
  refine ⟨_, _, rfl, h.arrive hs' hframe ?_ (fun j hj => ?_) rfl (fun hd => absurd hd hp) rfl⟩
  · have hhand := h.hand _ List.mem_cons_self
    rw [List.map_append, h.stay hframe, List.map_singleton, hdata, hhand, Board.put]
    dsimp only
    rw [Function.update_self, List.map_append, List.map_singleton]
  · exact Function.update_of_ne hj _ _

theorem Rel.reclaim (h : Rel U s A ps [⟨d, ds, f⟩]) (hfuel : U.card ≤ fuel) (p : Place n) :
    ∃ s' ps', s.reclaim fuel p d = some s' ∧ Rel U s' (A.free p f) ps' [] := by
  have hsound : Sound U s.mem s.queue ps ((d, ds) :: held s) := h.sound
  obtain ⟨mem', heq, hs', hdata, hframe⟩ := hsound.reclaim hfuel p
  rw [Firmware.reclaim, heq]
  refine ⟨_, _, rfl, h.arrive hs' hframe ?_ (fun j hj => ?_) rfl (fun _ pk hpk => ?_) rfl⟩
  · have hhand := h.hand _ List.mem_cons_self
    have hsingles : ((s.queue p).terminator :: ds).map (fun a => payload mem' [a]) =
        f.map fun x => [some x] := by
      have hmap := congrArg (List.map fun x => [x]) (hdata.trans hhand)
      rw [payload, List.map_map, List.map_map] at hmap
      exact hmap
    rw [List.map_append, h.stay hframe, List.map_map, Board.free]
    dsimp only
    rw [Function.update_self, List.map_append, List.map_map]
    exact congrArg _ hsingles
  · exact Function.update_of_ne hj _ _
  · obtain ⟨a, -, rfl⟩ := List.mem_map.mp hpk
    rfl

/-! ## Single assignments -/

/-- A change of the memory that leaves the links and the buffers. -/
theorem Rel.touch {mem' : Heap Buffer} (h : Rel U s A ps hand)
    (hlinks : ∀ a, (mem' a).nextAddr = (s.mem a).nextAddr ∧
      (mem' a).lastAddr = (s.mem a).lastAddr)
    (hdata : ∀ a, (mem' a).dataAddr = (s.mem a).dataAddr) :
    Rel U { s with mem := mem' } A ps hand where
  sound := h.sound.touch hlinks
  frames := fun p => by
    rw [← h.frames p]
    exact List.map_congr_left fun pk _ => payload_congr fun a _ => hdata a
  hand := fun x hx => (payload_congr fun a _ => hdata a).trans (h.hand x hx)
  ctx := h.ctx
  rsp := fun hav => (hdata _).trans (h.rsp hav)
  closed := fun pk hpk a ha => (hlinks a).2.trans (h.closed pk hpk a ha)

/-- An assignment to fields of one descriptor, other than the links and the buffer. -/
theorem Rel.touchOne (h : Rel U s A ps hand) (a : Addr) {g : Desc Buffer → Desc Buffer}
    (hg : ∀ x, (g x).nextAddr = x.nextAddr ∧ (g x).lastAddr = x.lastAddr ∧
      (g x).dataAddr = x.dataAddr) :
    Rel U { s with mem := s.mem.upd a g } A ps hand := by
  have hfields : ∀ b, (s.mem.upd a g b).nextAddr = (s.mem b).nextAddr ∧
      (s.mem.upd a g b).lastAddr = (s.mem b).lastAddr ∧
      (s.mem.upd a g b).dataAddr = (s.mem b).dataAddr := by
    intro b
    rcases eq_or_ne b a with rfl | hb
    · rw [Heap.upd_self]
      exact hg _
    · rw [Heap.upd_ne _ hb]
      exact ⟨rfl, rfl, rfl⟩
  exact h.touch (fun b => ⟨(hfields b).1, (hfields b).2.1⟩) fun b => (hfields b).2.2

/-- An assignment to the first descriptor of the packet in hand. -/
theorem Rel.touchHand {x : Pointer} {g : Desc Buffer → Desc Buffer}
    (h : Rel U s A ps [⟨d, ds, f⟩])
    (hg : ∀ y, (g y).nextAddr = y.nextAddr ∧ (g y).lastAddr = y.lastAddr)
    (hx : (g (s.mem d)).dataAddr = some x) :
    Rel U { s with mem := s.mem.upd d g } A ps [⟨d, ds, x :: f.tail⟩] := by
  have hsound : Sound U s.mem s.queue ps ((d, ds) :: held s) := h.sound
  have hlinks : ∀ b, (s.mem.upd d g b).nextAddr = (s.mem b).nextAddr ∧
      (s.mem.upd d g b).lastAddr = (s.mem b).lastAddr := by
    intro b
    rcases eq_or_ne b d with rfl | hb
    · rw [Heap.upd_self]
      exact hg _
    · rw [Heap.upd_ne _ hb]
      exact ⟨rfl, rfl⟩
  have hkeep : ∀ b, b ∉ (s.queue .down).terminator :: d :: ds →
      (s.mem.upd d g b).dataAddr = (s.mem b).dataAddr := by
    intro b hb
    have hne : b ≠ d := by
      rintro rfl
      exact hb (List.mem_cons_of_mem _ List.mem_cons_self)
    rw [Heap.upd_ne _ hne]
  refine ⟨h.sound.touch hlinks, fun p => ?_, fun y hy => ?_, h.ctx, fun hav => ?_,
    fun pk hpk a ha => (hlinks a).2.trans (h.closed pk hpk a ha)⟩
  · rw [← h.frames p]
    exact List.map_congr_left fun pk hpk => payload_congr fun a ha =>
      hkeep a (hsound.member_outside hpk ha)
  · obtain rfl := List.mem_singleton.mp hy
    have hhand := h.hand _ List.mem_cons_self
    cases f with
    | nil => exact nomatch hhand
    | cons y f =>
      obtain ⟨-, hothers⟩ := List.cons.inj hhand
      have hnodup := (h.sound.packet _ List.mem_cons_self).nodup
      have hsame : payload (s.mem.upd d g) ds = payload s.mem ds := payload_congr fun b hb => by
        rw [Heap.upd_ne]
        rintro rfl
        exact (List.nodup_cons.mp hnodup).1 hb
      change (s.mem.upd d g d).dataAddr :: payload (s.mem.upd d g) ds = some x :: f.map some
      rw [Heap.upd_self, hx, hsame]
      exact congrArg _ hothers
  · exact (hkeep _ (hsound.loose_outside (intDesc_mem_held hav) List.mem_cons_self)).trans
      (h.rsp hav)

/-- An assignment to `fw` that leaves the descriptors of the firmware. -/
theorem Rel.setCtx (h : Rel U s A ps hand) (c : Context n)
    (hint : c.intDescAvailable = s.ctx.intDescAvailable)
    (hfw : c.fwDescAvailable = s.ctx.fwDescAvailable) :
    Rel U { s with ctx := c } { A with ctx := c } ps hand where
  sound := by
    have hheld : held { s with ctx := c } = held s := by
      simp only [held, hint, hfw]
    rw [hheld]
    exact h.sound
  frames := h.frames
  hand := h.hand
  ctx := rfl
  rsp := fun hav => h.rsp (hint ▸ hav)
  closed := h.closed

/-! ## The descriptors of the firmware -/

theorem held_int (h : s.ctx.intDescAvailable) :
    held s = (s.intDesc, []) ::
      held { s with ctx := { s.ctx with intDescAvailable := false } } := by
  simp only [held, h, if_true, Bool.false_eq_true, if_false, List.nil_append, List.singleton_append]

/-- The firmware takes the descriptor for answers. -/
theorem Rel.takeInt (h : Rel U s A ps []) (hav : s.ctx.intDescAvailable) :
    Rel U { s with ctx := { s.ctx with intDescAvailable := false } }
      { A with ctx := { s.ctx with intDescAvailable := false } } ps
      [⟨s.intDesc, [], [⟨.rsp, 0⟩]⟩] where
  sound := by
    have hsound : Sound U s.mem s.queue ps (held s) := h.sound
    rw [held_int hav] at hsound
    exact hsound
  frames := h.frames
  hand := fun x hx => by
    obtain rfl := List.mem_singleton.mp hx
    exact congrArg (fun y => [y]) (h.rsp hav)
  ctx := rfl
  rsp := fun hfalse => nomatch hfalse
  closed := h.closed

theorem payload_single {β : Type} {h : Heap β} {x : DataAddr β}
    (hx : payload h (d :: ds) = [some x]) : ds = [] ∧ (h d).dataAddr = some x := by
  obtain ⟨hd, hds⟩ := List.cons.inj hx
  exact ⟨List.map_eq_nil_iff.mp hds, hd⟩

/-- The descriptor for answers comes back. -/
theorem Rel.holdInt (h : Rel U s A ps [⟨d, ds, [⟨.rsp, 0⟩]⟩])
    (hav : s.ctx.intDescAvailable = false) :
    Rel U { s with intDesc := d, ctx := { s.ctx with intDescAvailable := true } }
      { A with ctx := { s.ctx with intDescAvailable := true } } ps [] := by
  obtain ⟨rfl, hd⟩ := payload_single (h.hand _ List.mem_cons_self)
  refine ⟨?_, h.frames, fun x hx => absurd hx List.not_mem_nil, rfl, fun _ => hd, h.closed⟩
  have hsound : Sound U s.mem s.queue ps ((d, []) :: held s) := h.sound
  have hheld : held { s with intDesc := d, ctx := { s.ctx with intDescAvailable := true } } =
      (d, []) :: held s := by
    simp only [held, hav, if_true, Bool.false_eq_true, if_false, List.nil_append,
      List.singleton_append]
  rw [List.map_nil, List.nil_append, hheld]
  exact hsound

/-- A descriptor that is in no queue is written anew. -/
theorem Sound.renew {β ι : Type} [Fintype ι] {h : Heap β} {q : ι → Queue}
    {ps : ι → List (List Addr)} {loose : Loose} {x : Desc β}
    (hs : Sound U h q ps ((d, []) :: loose)) (hx : x.lastAddr = d) :
    Sound U (h.upd d fun _ => x) q ps ((d, []) :: loose) := by
  have hsame : ∀ a, a ≠ d → h.upd d (fun _ => x) a = h a := fun a ha => Heap.upd_ne h ha _
  refine ⟨fun i => ?_, fun y hy => ?_, hs.whole, hs.nodup⟩
  · have hout : ∀ a ∈ addrs (q i) (ps i), a ≠ d := by
      rintro a ha rfl
      exact (hs.apart List.mem_cons_self i).disjoint a List.mem_cons_self ha
    exact (hs.holds i).congr (fun a ha => by rw [hsame a (hout a ha)])
      fun a ha => by rw [hsame a (hout a ha)]
  · rcases List.mem_cons.mp hy with rfl | hy
    · refine ⟨⟨_, rfl, rfl⟩, ?_, List.nodup_singleton d⟩
      rw [Heap.upd_self]
      exact hx
    · have hout : ∀ a ∈ y.1 :: y.2, a ≠ d := by
        intro a ha heq
        exact hs.loose_disjoint hy (by rw [heq]; exact List.mem_cons_self) ha
      exact (hs.packet y (List.mem_cons_of_mem _ hy)).congr
        (fun a ha => by rw [hsame a (hout a ha)])
        (by rw [hsame y.1 (hout y.1 List.mem_cons_self)])

theorem held_fw (h : s.ctx.fwDescAvailable) (c : Context n)
    (hint : c.intDescAvailable = s.ctx.intDescAvailable) (hfw : c.fwDescAvailable = false) :
    (held s).Perm ((s.fwDesc, []) :: held { s with ctx := c }) := by
  simp only [held, h, hint, hfw, if_true, Bool.false_eq_true, if_false, List.append_nil]
  exact List.perm_append_singleton _ _

/-- The firmware takes its own descriptor and writes it anew. -/
theorem Rel.takeFw {x : Desc Buffer} {y : Pointer} (h : Rel U s A ps [])
    (hav : s.ctx.fwDescAvailable) (c : Context n)
    (hint : c.intDescAvailable = s.ctx.intDescAvailable) (hfw : c.fwDescAvailable = false)
    (hlast : x.lastAddr = s.fwDesc) (hdata : x.dataAddr = some y) :
    Rel U { s with ctx := c, mem := s.mem.upd s.fwDesc fun _ => x } { A with ctx := c } ps
      [⟨s.fwDesc, [], [y]⟩] := by
  have hloose : Sound U s.mem s.queue ps (held s) := h.sound
  have hsound := hloose.perm (held_fw hav c hint hfw)
  have hout : ∀ j, ∀ pk ∈ ps j, ∀ a ∈ pk, a ≠ s.fwDesc := by
    rintro j pk hpk a ha rfl
    exact hsound.member_outside (i := j) hpk ha (List.mem_cons_of_mem _ List.mem_cons_self)
  refine ⟨hsound.renew hlast, fun p => ?_, fun z hz => ?_, rfl, fun hrsp => ?_,
    fun pk hpk a ha => ?_⟩
  · rw [← h.frames p]
    exact List.map_congr_left fun pk hpk => payload_congr fun a ha =>
      congrArg Desc.dataAddr (Heap.upd_ne s.mem (hout p pk hpk a ha) fun _ => x)
  · obtain rfl := List.mem_singleton.mp hz
    change [((s.mem.upd s.fwDesc fun _ => x) s.fwDesc).dataAddr] = _
    rw [Heap.upd_self, hdata]
    rfl
  · have hrsp' : s.ctx.intDescAvailable := hint ▸ hrsp
    have hne : s.intDesc ≠ s.fwDesc := by
      intro heq
      have hmem : (s.intDesc, []) ∈ held { s with ctx := c } := by
        rw [held, if_pos hrsp]
        exact List.mem_cons_self
      exact hsound.loose_disjoint hmem List.mem_cons_self (by rw [heq]; exact List.mem_cons_self)
    change ((s.mem.upd s.fwDesc fun _ => x) s.intDesc).dataAddr = _
    rw [Heap.upd_ne _ hne]
    exact h.rsp hrsp'
  · change ((s.mem.upd s.fwDesc fun _ => x) a).lastAddr = a
    rw [Heap.upd_ne _ (hout _ pk hpk a (List.mem_of_mem_tail ha))]
    exact h.closed pk hpk a ha

/-- The descriptor of the firmware comes back. -/
theorem Rel.holdFw {y : Pointer} (h : Rel U s A ps [⟨d, ds, [y]⟩])
    (hav : s.ctx.fwDescAvailable = false) :
    Rel U { s with fwDesc := d, ctx := { s.ctx with fwDescAvailable := true } }
      { A with ctx := { s.ctx with fwDescAvailable := true } } ps [] := by
  obtain ⟨rfl, -⟩ := payload_single (h.hand _ List.mem_cons_self)
  refine ⟨?_, h.frames, fun x hx => absurd hx List.not_mem_nil, rfl, h.rsp, h.closed⟩
  have hsound : Sound U s.mem s.queue ps ((d, []) :: held s) := h.sound
  have hheld : ((d, []) :: held s).Perm
      (held { s with fwDesc := d, ctx := { s.ctx with fwDescAvailable := true } }) := by
    simp only [held, hav, if_true, Bool.false_eq_true, if_false, List.append_nil]
    exact (List.perm_append_singleton _ _).symm
  exact hsound.perm hheld

/-! ## Packets that are divided anew -/

/-- The descriptors of queue `p` make other packets than before. -/
theorem Rel.regroup {F : List Frame} {g : Desc Buffer → Desc Buffer} (h : Rel U s A ps [])
    (new : List (List Addr)) (hd : d ∈ (ps p).flatten) (hflat : new.flatten = (ps p).flatten)
    (hg : ∀ x, (g x).nextAddr = x.nextAddr ∧ (g x).dataAddr = x.dataAddr)
    (hlast : ∀ pk ∈ new, NamesLast (s.mem.upd d g) pk)
    (hclosed : p = .down → ∀ pk ∈ new, ∀ a ∈ pk.tail, (s.mem.upd d g a).lastAddr = a)
    (hF : new.map (payload s.mem) = F.map (List.map some)) :
    Rel U { s with mem := s.mem.upd d g } { A with frames := Function.update A.frames p F }
      (Function.update ps p new) [] := by
  have hsound : Sound U s.mem s.queue ps (held s) := h.sound
  have hin : d ∈ addrs (s.queue p) (ps p) := List.mem_append_left _ hd
  have hfields : ∀ b, (s.mem.upd d g b).nextAddr = (s.mem b).nextAddr ∧
      (s.mem.upd d g b).dataAddr = (s.mem b).dataAddr := by
    intro b
    rcases eq_or_ne b d with rfl | hb
    · rw [Heap.upd_self]
      exact hg _
    · rw [Heap.upd_ne _ hb]
      exact ⟨rfl, rfl⟩
  have hother : ∀ j ≠ p, ∀ a ∈ addrs (s.queue j) (ps j), a ≠ d := by
    rintro j hj a ha rfl
    exact hsound.queues_disjoint hj ha hin
  have hcopy : payload (s.mem.upd d g) = payload s.mem := funext fun pk =>
    payload_congr fun a _ => (hfields a).2
  refine ⟨⟨fun j => ?_, fun x hx => ?_, ?_, hsound.nodup⟩, fun j => ?_,
    fun x hx => absurd hx List.not_mem_nil, h.ctx, fun hav => (hfields _).2.trans (h.rsp hav),
    fun pk hpk a ha => ?_⟩
  · rcases eq_or_ne j p with rfl | hj
    · have hold := hsound.holds j
      rw [Function.update_self]
      refine ⟨?_, hlast, ?_⟩
      · rw [hflat]
        exact (Chain.path_congr fun a _ => (hfields a).1.symm).mp hold.chain
      · rw [hflat]
        exact hold.nodup
    · rw [Function.update_of_ne hj]
      exact (hsound.holds j).congr (fun a _ => (hfields a).1) fun a ha =>
        congrArg Desc.lastAddr (Heap.upd_ne _ (hother j hj a ha) _)
  · have hloose : (x.1, x.2) ∈ held s := hx
    have hne : x.1 ≠ d := by
      rintro rfl
      exact (hsound.apart hloose p).disjoint x.1 List.mem_cons_self hin
    exact (hsound.packet x hx).congr (fun a _ => (hfields a).1)
      (congrArg Desc.lastAddr (Heap.upd_ne _ hne _))
  · have hshare : queueAddrs s.queue (Function.update ps p new) = queueAddrs s.queue ps := by
      funext j
      rcases eq_or_ne j p with rfl | hj
      · rw [queueAddrs, queueAddrs, Function.update_self, addrs, addrs, hflat]
      · rw [queueAddrs, queueAddrs, Function.update_of_ne hj]
    rw [hshare]
    exact hsound.whole
  · change (Function.update ps p new j).map (payload (s.mem.upd d g)) =
      (Function.update A.frames p F j).map (List.map some)
    rw [hcopy]
    rcases eq_or_ne j p with rfl | hj
    · rw [Function.update_self, Function.update_self, hF]
    · rw [Function.update_of_ne hj, Function.update_of_ne hj, h.frames j]
  · change (s.mem.upd d g a).lastAddr = a
    rcases eq_or_ne (Place.down : Place n) p with hdown | hj
    · rw [hdown, Function.update_self] at hpk
      exact hclosed hdown.symm pk hpk a ha
    · rw [Function.update_of_ne hj] at hpk
      rw [Heap.upd_ne _ (hother _ hj a (mem_addrs hpk (List.mem_of_mem_tail ha)))]
      exact h.closed pk hpk a ha

/-- A visited descriptor is the first of a packet, with a frame. -/
theorem Rel.visited (h : Rel U s A ps hand) (hv : Visited s.mem (s.queue p) d) :
    ∃ pre ds post preF f postF, ps p = pre ++ (d :: ds) :: post ∧
      A.frames p = preF ++ f :: postF ∧ pre.map (payload s.mem) = preF.map (List.map some) ∧
      payload s.mem (d :: ds) = f.map some ∧
      post.map (payload s.mem) = postF.map (List.map some) := by
  obtain ⟨pre, ds, post, hps⟩ := hv.split (h.sound.holds p)
  have hframes := h.frames p
  rw [hps, List.map_append, List.map_cons] at hframes
  obtain ⟨preF, restF, hA, hpre, hrest⟩ := List.map_eq_append_iff.mp hframes.symm
  obtain ⟨f, postF, rfl, hf, hpost⟩ := List.map_eq_cons_iff.mp hrest
  exact ⟨pre, ds, post, preF, f, postF, hps, hA, hpre.symm, hf.symm, hpost.symm⟩

/-- The first descriptors of different packets differ, and no first descriptor is inside of a
packet. -/
theorem Holds.first_unique {β : Type} {h : Heap β} {q : Queue} {pre post : List (List Addr)}
    (hq : Holds h q (pre ++ (d :: ds) :: post)) :
    d ∉ pre.flatten ∧ d ∉ ds ∧ d ∉ post.flatten := by
  have hnodup := hq.nodup
  rw [List.flatten_append, List.flatten_cons, List.append_assoc, List.append_assoc,
    List.nodup_append] at hnodup
  obtain ⟨-, hrest, hcross⟩ := hnodup
  rw [List.cons_append, List.nodup_cons, List.mem_append, not_or, List.mem_append, not_or] at hrest
  refine ⟨fun hmem => ?_, hrest.1.1, hrest.1.2.1⟩
  exact hcross d hmem d List.mem_cons_self rfl

/-- The hardware makes one packet of two. -/
theorem Rel.group (h : Rel U s A ps []) (hv : Visited s.mem (s.queue p) d)
    (hmore : (s.mem (s.mem d).lastAddr).nextAddr ≠ (s.queue p).terminator)
    (hsingle : (s.mem (s.mem (s.mem d).lastAddr).nextAddr).lastAddr =
      (s.mem (s.mem d).lastAddr).nextAddr) :
    ∃ preF f x postF ps', A.frames p = preF ++ f :: [x] :: postF ∧
      Rel U { s with mem := s.mem.upd d fun y =>
          { y with lastAddr := (s.mem y.lastAddr).nextAddr } }
        { A with frames := Function.update A.frames p (preF ++ (f ++ [x]) :: postF) } ps' [] := by
  obtain ⟨pre, ds, post, preF, f, postF, hps, hA, hpre, hf, hpost⟩ := h.visited hv
  have hhold := h.sound.holds p
  rw [hps] at hhold
  obtain ⟨hbehind, hlast⟩ := hhold.behind
  obtain ⟨hdpre, hdds, hdpost⟩ := hhold.first_unique
  rw [hlast] at hmore hsingle
  cases post with
  | nil => exact absurd hbehind hmore
  | cons pk post =>
    have hmem : pk ∈ pre ++ (d :: ds) :: pk :: post :=
      List.mem_append_right _ (List.mem_cons_of_mem _ List.mem_cons_self)
    obtain ⟨e, es, rfl, hlaste⟩ := hhold.last pk hmem
    have hnext : (s.mem (ds.getLastD d)).nextAddr = e := hbehind.head_eq
    rw [hnext] at hsingle
    obtain ⟨y, postF, rfl, hy, hpostF⟩ := List.map_eq_cons_iff.mp hpost.symm
    -- The second packet names itself as its last descriptor, so it is the only one.
    have hes : es = [] := by
      have hpk : (e :: es).Nodup := by
        have hnodup := hhold.nodup
        rw [List.flatten_append, List.flatten_cons, List.flatten_cons] at hnodup
        have hinner := (List.nodup_append.mp (List.nodup_append.mp hnodup).1).2.1
        exact (List.nodup_append.mp (List.nodup_append.mp hinner).2.1).1
      exact (getLastD_eq_iff hpk).mp (hlaste.symm.trans hsingle)
    subst hes
    obtain ⟨x, rfl, hx⟩ := List.map_eq_singleton_iff.mp hy
    rw [List.flatten_cons, List.singleton_append, List.mem_cons, not_or] at hdpost
    refine ⟨preF, f, x, postF, _, hA, h.regroup (pre ++ (d :: (ds ++ [e])) :: post)
      ?_ ?_ (fun _ => ⟨rfl, rfl⟩) (fun pk hpk => ?_) (fun hp pk hpk a ha => ?_) ?_⟩
    · rw [hps, List.flatten_append, List.flatten_cons]
      exact List.mem_append_right _ List.mem_cons_self
    · simp only [hps, List.flatten_append, List.flatten_cons, List.cons_append, List.append_assoc,
        List.nil_append]
    · have hold : ∀ pk ∈ pre ++ post, NamesLast (s.mem.upd d fun y =>
          { y with lastAddr := (s.mem y.lastAddr).nextAddr }) pk := by
        intro pk' hpk'
        have hin : pk' ∈ pre ++ (d :: ds) :: [e] :: post := by
          rcases List.mem_append.mp hpk' with hleft | hright
          · exact List.mem_append_left _ hleft
          · exact List.mem_append_right _ (List.mem_cons_of_mem _ (List.mem_cons_of_mem _ hright))
        obtain ⟨a, as, rfl, hlasta⟩ := hhold.last pk' hin
        have hne : a ≠ d := by
          rintro rfl
          rcases List.mem_append.mp hpk' with hleft | hright
          · exact hdpre (List.mem_flatten_of_mem hleft List.mem_cons_self)
          · exact hdpost.2 (List.mem_flatten_of_mem hright List.mem_cons_self)
        exact ⟨a, as, rfl, by rw [Heap.upd_ne _ hne, hlasta]⟩
      rcases List.mem_append.mp hpk with hpk | hpk
      · exact hold pk (List.mem_append_left _ hpk)
      · rcases List.mem_cons.mp hpk with rfl | hpk
        · refine ⟨d, ds ++ [e], rfl, ?_⟩
          rw [Heap.upd_self, hlast, hnext, List.getLastD_concat]
        · exact hold pk (List.mem_append_right _ hpk)
    · subst hp
      have hne : a ≠ d := by
        rintro rfl
        rcases List.mem_append.mp hpk with hpk | hpk
        · exact hdpre (List.mem_flatten_of_mem hpk (List.mem_of_mem_tail ha))
        · rcases List.mem_cons.mp hpk with rfl | hpk
          · rcases List.mem_append.mp ha with ha | ha
            · exact hdds ha
            · exact hdpost.1 (List.mem_singleton.mp ha)
          · exact hdpost.2 (List.mem_flatten_of_mem hpk (List.mem_of_mem_tail ha))
      rw [Heap.upd_ne _ hne]
      rcases List.mem_append.mp hpk with hpk | hpk
      · exact h.closed pk (by rw [hps]; exact List.mem_append_left _ hpk) a ha
      · rcases List.mem_cons.mp hpk with rfl | hpk
        · rcases List.mem_append.mp ha with ha | ha
          · exact h.closed (d :: ds)
              (by rw [hps]; exact List.mem_append_right _ List.mem_cons_self) a ha
          · rw [List.mem_singleton.mp ha]
            exact hsingle
        · exact h.closed pk (by rw [hps]; exact List.mem_append_right _ (List.mem_cons_of_mem _
            (List.mem_cons_of_mem _ hpk))) a ha
    · have hjoin : payload s.mem (d :: (ds ++ [e])) = (f ++ [x]).map some := by
        refine (payload_append s.mem (d :: ds) [e]).trans ?_
        rw [List.map_append]
        exact congrArg₂ (· ++ ·) hf hy.symm
      rw [List.map_append, List.map_cons, List.map_append, List.map_cons, hpre, hjoin, hpostF]

/-- The firmware makes single packets of one packet of the down queue. -/
theorem Rel.split {g : Desc Buffer → Desc Buffer} (h : Rel U s A ps [])
    (hv : Visited s.mem (s.queue .down) d)
    (hg : ∀ x, (g x).nextAddr = x.nextAddr ∧ (g x).dataAddr = x.dataAddr)
    (hlast : ∀ x, (g x).lastAddr = d) :
    ∃ preF f postF ps', A.frames .down = preF ++ f :: postF ∧
      Rel U { s with mem := s.mem.upd d g } { A with
        frames := Function.update A.frames Place.down (preF ++ f.map (fun x => [x]) ++ postF) }
        ps' [] := by
  obtain ⟨pre, ds, post, preF, f, postF, hps, hA, hpre, hf, hpost⟩ := h.visited hv
  have hhold := h.sound.holds .down
  rw [hps] at hhold
  obtain ⟨hdpre, hdds, hdpost⟩ := hhold.first_unique
  have hself : ∀ a ∈ d :: ds, (s.mem.upd d g a).lastAddr = a := by
    intro a ha
    rcases List.mem_cons.mp ha with rfl | hads
    · rw [Heap.upd_self, hlast]
    · have hne : a ≠ d := by
        rintro rfl
        exact hdds hads
      rw [Heap.upd_ne _ hne]
      exact h.closed (d :: ds) (by rw [hps]; exact List.mem_append_right _ List.mem_cons_self) a
        hads
  have hold : ∀ pk ∈ pre ++ post, ∀ a ∈ pk, a ≠ d := by
    rintro pk hpk a ha rfl
    rcases List.mem_append.mp hpk with hpk | hpk
    · exact hdpre (List.mem_flatten_of_mem hpk ha)
    · exact hdpost (List.mem_flatten_of_mem hpk ha)
  have hmem : ∀ pk ∈ pre ++ post, pk ∈ pre ++ (d :: ds) :: post := fun pk hpk =>
    (List.mem_append.mp hpk).elim (List.mem_append_left _) fun hpk =>
      List.mem_append_right _ (List.mem_cons_of_mem _ hpk)
  have hparts : ∀ pk ∈ pre ++ (d :: ds).map (fun a => [a]) ++ post,
      pk ∈ pre ++ post ∨ ∃ a ∈ d :: ds, pk = [a] := by
    intro pk hpk
    rcases List.mem_append.mp hpk with hpk | hpk
    · rcases List.mem_append.mp hpk with hpk | hpk
      · exact .inl (List.mem_append_left _ hpk)
      · obtain ⟨a, ha, rfl⟩ := List.mem_map.mp hpk
        exact .inr ⟨a, ha, rfl⟩
    · exact .inl (List.mem_append_right _ hpk)
  refine ⟨preF, f, postF, _, hA, h.regroup (pre ++ (d :: ds).map (fun a => [a]) ++ post)
    ?_ ?_ hg (fun pk hpk => ?_) (fun _ pk hpk a ha => ?_) ?_⟩
  · rw [hps, List.flatten_append, List.flatten_cons]
    exact List.mem_append_right _ List.mem_cons_self
  · rw [hps, List.flatten_append, List.flatten_append, flatten_map_singleton, List.flatten_append,
      List.flatten_cons, List.append_assoc]
  · rcases hparts pk hpk with hpk | ⟨a, ha, rfl⟩
    · obtain ⟨a, as, rfl, hlasta⟩ := hhold.last pk (hmem pk hpk)
      exact ⟨a, as, rfl, by rw [Heap.upd_ne _ (hold _ hpk a List.mem_cons_self), hlasta]⟩
    · exact ⟨a, [], rfl, hself a ha⟩
  · rcases hparts pk hpk with hpk | ⟨b, hb, rfl⟩
    · rw [Heap.upd_ne _ (hold pk hpk a (List.mem_of_mem_tail ha))]
      exact h.closed pk (by rw [hps]; exact hmem pk hpk) a ha
    · exact absurd ha List.not_mem_nil
  · have hsingles : ((d :: ds).map fun a => [a]).map (payload s.mem) =
        (f.map fun x => [x]).map (List.map some) := by
      have hmap := congrArg (List.map fun x => [x]) hf
      rw [payload, List.map_map, List.map_map] at hmap
      rw [List.map_map, List.map_map]
      exact hmap
    rw [List.map_append, List.map_append, List.map_append, List.map_append, hpre, hsingles, hpost]

end DebianKernel.Carl9170
