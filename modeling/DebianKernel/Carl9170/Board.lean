import DebianKernel.Carl9170.Frames

/-!
# What the traffic of the carl9170 firmware keeps

The steps of `Traffic`, on lists of frames (`Board.Step`), and what they keep (`Board.Ok`): each
buffer is in one frame or with the firmware, each frame from the host is told about once, and the
counters count.

Result: `Board.Ok.step`.
-/

namespace DebianKernel.Carl9170

open Shares CountedRing

variable {n : Nat}

/-! ## Sums over all frames -/

namespace Board

variable {α : Type} {A : Board n} {p : Place n} {f : Frame} {rest F : List Frame}
  {m : Place n → Frame → Multiset α}

def set (A : Board n) (p : Place n) (F : List Frame) : Board n :=
  { A with frames := Function.update A.frames p F }

def sum (A : Board n) (m : Place n → Frame → Multiset α) : Multiset α :=
  total fun p => ((A.frames p).map (m p)).sum

theorem set_self (A : Board n) (p : Place n) (F : List Frame) : (A.set p F).frames p = F := by
  change Function.update A.frames p F p = F
  rw [Function.update_self]

theorem set_ne (A : Board n) {p q : Place n} (F : List Frame) (hq : q ≠ p) :
    (A.set p F).frames q = A.frames q := by
  change Function.update A.frames p F q = A.frames q
  rw [Function.update_of_ne hq]

theorem sum_set (A : Board n) (p : Place n) (F : List Frame) (m : Place n → Frame → Multiset α) :
    (A.set p F).sum m + ((A.frames p).map (m p)).sum = A.sum m + (F.map (m p)).sum := by
  have h := total_change (f := fun q => (((A.set p F).frames q).map (m q)).sum)
    (g := fun q => ((A.frames q).map (m q)).sum) (i := p) fun q hq => by rw [set_ne A F hq]
  rw [set_self] at h
  exact h

theorem sum_drop (hA : A.frames p = f :: rest) : (A.drop p rest).sum m + m p f = A.sum m := by
  have h := sum_set A p rest m
  rw [hA, List.map_cons, List.sum_cons, ← add_assoc] at h
  exact add_right_cancel h

theorem sum_put (A : Board n) (p : Place n) (f : Frame) :
    (A.put p f).sum m = A.sum m + m p f := by
  have h := sum_set A p (A.frames p ++ [f]) m
  rw [List.map_append, List.sum_append, List.map_singleton, List.sum_singleton, add_left_comm,
    add_comm] at h
  exact add_left_cancel h

theorem sum_free (A : Board n) (p : Place n) (f : Frame) :
    (A.free p f).sum m = A.sum m + (f.map fun x => m p [x]).sum := by
  have h := sum_set A p (A.frames p ++ f.map fun x => [x]) m
  rw [List.map_append, List.sum_append, List.map_map, add_left_comm, add_comm] at h
  exact add_left_cancel h

/-- Every frame satisfies `P`. -/
def All (A : Board n) (P : Place n → Frame → Prop) : Prop := ∀ p, ∀ f ∈ A.frames p, P p f

variable {P : Place n → Frame → Prop}

theorem All.set (h : A.All P) (hF : ∀ f ∈ F, P p f) : (A.set p F).All P := by
  intro q g hg
  rcases eq_or_ne q p with rfl | hq
  · rw [set_self] at hg
    exact hF g hg
  · rw [set_ne A F hq] at hg
    exact h q g hg

theorem All.drop (h : A.All P) (hA : A.frames p = f :: rest) :
    (A.drop p rest).All P ∧ P p f := by
  have hp := h p
  rw [hA] at hp
  exact ⟨h.set fun g hg => hp g (List.mem_cons_of_mem f hg), hp f List.mem_cons_self⟩

theorem All.put (h : A.All P) (hf : P p f) : (A.put p f).All P := by
  refine h.set fun g hg => ?_
  rcases List.mem_append.mp hg with hg | hg
  · exact h p g hg
  · rwa [List.mem_singleton.mp hg]

theorem All.free (h : A.All P) (hf : ∀ x ∈ f, P p [x]) : (A.free p f).All P := by
  refine h.set fun g hg => ?_
  rcases List.mem_append.mp hg with hg | hg
  · exact h p g hg
  · obtain ⟨x, hx, rfl⟩ := List.mem_map.mp hg
    exact hf x hx

end Board

/-! ## Frames -/

/-- The places where frames wait for the radio. -/
def hidden : Place n → Bool
  | .tx _ | .cab _ | .retry => true
  | _ => false

/-- The places of the buffers for frames from the host. -/
def host : Place n → Bool
  | .down | .tx _ | .cab _ | .retry => true
  | _ => false

def Buffer.isData : Buffer → Bool
  | .data _ => true
  | _ => false

/-- The first buffer of a frame, where its header is. -/
def firstBuffer (f : Frame) : Multiset Buffer := f.head?.toList.map (·.buffer)

def buffers (f : Frame) : Multiset Buffer := f.map (·.buffer)

/-- The headers of the frames that wait for the radio. -/
def inFlight (A : Board n) : Multiset Buffer :=
  A.sum fun p f => if hidden p then firstBuffer f else 0

/-- Those of them that came from the host. -/
def hostFrames (A : Board n) : Multiset Buffer := (inFlight A).filter (·.isData)

def hideFrame : Frame → Frame
  | [] => []
  | x :: f => { x with offset := x.offset + superdescLen } :: f

def unhideFrame : Frame → Frame
  | [] => []
  | x :: f => getSuper x :: f

/-- The indices that `wlan_tx_status` can report. -/
def Bounds (s : Super) : Prop :=
  s.rix.toNat ≤ txMaxRetryRates ∧ 1 ≤ s.cnt.toNat ∧ s.cnt.toNat ≤ txMaxRateTries

/-- What a frame keeps while it waits for the radio. -/
structure Core (s r : Super) : Prop where
  cookie : r.cookie = s.cookie
  queue : r.queue = s.queue
  cab : r.cab = s.cab
  vifId : r.vifId = s.vifId
  backReq : isBackReq r.frameControl = isBackReq s.frameControl

structure FrameOk (txBlocks : Nat) (c : Context n) (p : Place n) (f : Frame) : Prop where
  shape : ∃ x g, f = x :: g ∧ x.offset = (if hidden p then superdescLen else 0) ∧
    ∀ y ∈ g, y.offset = 0
  data : ∀ y ∈ f, ∀ i, y.buffer = .data i → (i < txBlocks ↔ host p)
  own : ∀ y ∈ f, y.buffer = .ba ∨ y.buffer = .cmd → hidden p ∧ f.tail = []
  rsp : ∀ y ∈ f, y.buffer = .rsp → p = .up ∧ f.tail = []
  queue : ∀ i, p = .tx i → ∀ x ∈ f.head?, (c.super x.buffer).queue.toNat = i
  cab : ∀ v, p = .cab v → ∀ x ∈ f.head?,
    (c.super x.buffer).cab = true ∧ (c.super x.buffer).vifId.toNat = v
  tries : hidden p → ∀ x ∈ f.head?, Bounds (c.super x.buffer)

/-! ## Steps -/

namespace Board

open Context in
/-- A step of the firmware, of the hardware or of the host. -/
inductive Step : Board n → Board n → Prop
  | idle (A) : Step A A
  | refuse {A x f rest} : A.frames .down = (x :: f) :: rest →
      Step A (Board.free { A.drop .down rest with
        ctx := (A.ctx.take x.buffer).wlanTxComplete x.buffer false } .down (x :: f))
  | accept {A x f rest} : A.frames .down = (x :: f) :: rest → (A.ctx.super x.buffer).cab = false →
      Step A (Board.put { A.drop .down rest with
        ctx := (A.ctx.take x.buffer).wlanTxInit x.buffer } (txQueue (A.ctx.super x.buffer))
        (hideFrame (x :: f)))
  | acceptCab {A x f rest v} : A.frames .down = (x :: f) :: rest →
      (A.ctx.super x.buffer).cab = true → cabIndex (A.ctx.super x.buffer) = some v →
      Step A (Board.put { A.drop .down rest with
        ctx := ((A.ctx.take x.buffer).wlanTxInit x.buffer).addCab v } (.cab v)
        (hideFrame (x :: f)))
  | requeue {A f rest} : A.frames .down = f :: rest →
      Step A ((A.drop .down rest).free .down f)
  | split {A pre f post} : A.frames .down = pre ++ f :: post →
      Step A (A.set .down (pre ++ f.map (fun x => [x]) ++ post))
  | upload {A f rest} : A.frames .up = f :: rest → f ≠ [⟨.rsp, 0⟩] →
      Step A ((A.drop .up rest).free .rx f)
  | answered {A rest} : A.frames .up = [⟨.rsp, 0⟩] :: rest →
      Step A { A.drop .up rest with ctx := { A.ctx with intDescAvailable := true } }
  | answer {A} : A.ctx.intDescAvailable → Step A (Board.put { A with
      ctx := { A.ctx with intDescAvailable := false } } .up [⟨.rsp, 0⟩])
  | keep {A f rest} : A.frames .rx = f :: rest → Step A ((A.drop .rx rest).put .up f)
  | filter {A f rest} : A.frames .rx = f :: rest → Step A ((A.drop .rx rest).free .rx f)
  | retouch {A b r} : Core (A.ctx.super b) r → (Bounds (A.ctx.super b) → Bounds r) →
      Step A { A with ctx := A.ctx.setSuper b r }
  | again {A i x f rest r} : A.frames (.tx i) = (x :: f) :: rest →
      Core (A.ctx.super x.buffer) r → (Bounds (A.ctx.super x.buffer) → Bounds r) →
      Step A (Board.put { A.drop (.tx i) rest with ctx := A.ctx.setSuper x.buffer r } .retry
        (x :: f))
  | drain {A x f rest} : A.frames .retry = (x :: f) :: rest →
      Step A ((A.drop .retry rest).put (txQueue (A.ctx.super x.buffer)) (x :: f))
  | flush {A v x f rest r} : A.frames (.cab v) = (x :: f) :: rest →
      Core (A.ctx.super x.buffer) r → (Bounds (A.ctx.super x.buffer) → Bounds r) →
      Step A (Board.put { A.drop (.cab v) rest with ctx := A.ctx.setSuper x.buffer r }
        (txQueue r) (x :: f))
  | done {A i x f rest success c} : A.frames (.tx i) = (x :: f) :: rest →
      some (getSuper x) ≠ A.ctx.fwDescData → A.ctx.wlanTxDone x.buffer success = some c →
      Step A (Board.free { A.drop (.tx i) rest with ctx := c } .down (unhideFrame (x :: f)))
  | own {A b r} : A.ctx.fwDescAvailable → b = .ba ∨ b = .cmd → r.cab = false →
      isBackReq r.frameControl = false →
      Step A (Board.put { A with ctx := { A.ctx.setSuper b r with
        fwDescAvailable := false, fwDescData := some ⟨b, 0⟩ }.wlanTxInit b } (txQueue r)
        (hideFrame [⟨b, 0⟩]))
  | ownDone {A i x f rest} : A.frames (.tx i) = (x :: f) :: rest →
      some (getSuper x) = A.ctx.fwDescData →
      Step A { A.drop (.tx i) rest with ctx := { A.ctx with fwDescAvailable := true } }
  | send (A) : Step A { A with ctx := A.ctx.sendBuffered }
  | group {A p pre f x post} : A.frames p = pre ++ f :: [x] :: post → p = .down ∨ p = .rx →
      Step A (A.set p (pre ++ (f ++ [x]) :: post))
  | write {A b r f y} : f ∈ A.frames .down → y ∈ f → y.buffer = b →
      (r.cab = true → r.vifId.toNat < n) → Step A { A with ctx := A.ctx.setSuper b r }

end Board

/-! ## Frames that stay as they should be -/

theorem Core.refl (s : Super) : Core s s := ⟨rfl, rfl, rfl, rfl, rfl⟩

theorem core_start (s : Super) : Core s s.start ∧ Bounds s.start :=
  ⟨⟨rfl, rfl, rfl, rfl, rfl⟩, Nat.zero_le _, Nat.le_refl _, (by decide : 1 ≤ 7)⟩

theorem hidden_host {p : Place n} (hp : hidden p = true) : host p = true := by
  cases p <;> first | rfl | exact nomatch hp

section

variable {txBlocks : Nat} {c c' : Context n} {p p' : Place n} {x : Pointer} {f : Frame}

theorem FrameOk.congr (h : FrameOk txBlocks c p f)
    (hkeep : hidden p → ∀ x ∈ f.head?, Core (c.super x.buffer) (c'.super x.buffer) ∧
      (Bounds (c.super x.buffer) → Bounds (c'.super x.buffer))) : FrameOk txBlocks c' p f where
  shape := h.shape
  data := h.data
  own := h.own
  rsp := h.rsp
  queue := by
    rintro i rfl x hx
    rw [(hkeep rfl x hx).1.queue]
    exact h.queue i rfl x hx
  cab := by
    rintro v rfl x hx
    rw [(hkeep rfl x hx).1.cab, (hkeep rfl x hx).1.vifId]
    exact h.cab v rfl x hx
  tries := fun hp x hx => (hkeep hp x hx).2 (h.tries hp x hx)

/-- A frame from the host that waits for the radio from now on. -/
theorem FrameOk.hide (h : FrameOk txBlocks c .down (x :: f)) (hp : hidden p)
    (hqueue : ∀ i, p = .tx i → (c'.super x.buffer).queue.toNat = i)
    (hcab : ∀ v, p = .cab v →
      (c'.super x.buffer).cab = true ∧ (c'.super x.buffer).vifId.toNat = v)
    (htries : Bounds (c'.super x.buffer)) : FrameOk txBlocks c' p (hideFrame (x :: f)) := by
  obtain ⟨y, g, heq, hoffset, hothers⟩ := h.shape
  obtain ⟨rfl, rfl⟩ := List.cons.inj heq
  have hbuffer : ∀ z ∈ hideFrame (x :: f), ∃ y ∈ x :: f, z.buffer = y.buffer := by
    intro z hz
    rcases List.mem_cons.mp hz with rfl | hz
    · exact ⟨x, List.mem_cons_self, rfl⟩
    · exact ⟨z, List.mem_cons_of_mem x hz, rfl⟩
  refine ⟨⟨_, f, rfl, ?_, hothers⟩, fun z hz i hi => ?_, fun z hz hown => ?_, fun z hz hrsp => ?_,
    fun i hi z hz => ?_, fun v hv z hz => ?_, fun _ z hz => ?_⟩
  · rw [if_pos hp]
    exact (congrArg (· + (superdescLen : Int)) hoffset).trans (Int.zero_add _)
  · obtain ⟨y, hy, hbuf⟩ := hbuffer z hz
    rw [hidden_host hp]
    exact h.data y hy i (hbuf ▸ hi)
  · obtain ⟨y, hy, hbuf⟩ := hbuffer z hz
    rw [hbuf] at hown
    exact nomatch (h.own y hy hown).1
  · obtain ⟨y, hy, hbuf⟩ := hbuffer z hz
    rw [hbuf] at hrsp
    exact nomatch (h.rsp y hy hrsp).1
  · obtain rfl := Option.mem_some_iff.mp hz
    exact hqueue i hi
  · obtain rfl := Option.mem_some_iff.mp hz
    exact hcab v hv
  · obtain rfl := Option.mem_some_iff.mp hz
    exact htries

/-- A frame that waits for the radio at another place. -/
theorem FrameOk.move (h : FrameOk txBlocks c p (x :: f)) (hp : hidden p) (hp' : hidden p')
    (hqueue : ∀ i, p' = .tx i → (c'.super x.buffer).queue.toNat = i)
    (hcab : ∀ v, p' = .cab v →
      (c'.super x.buffer).cab = true ∧ (c'.super x.buffer).vifId.toNat = v)
    (htries : Bounds (c'.super x.buffer)) : FrameOk txBlocks c' p' (x :: f) where
  shape := by
    rw [if_pos hp']
    have hshape := h.shape
    rwa [if_pos hp] at hshape
  data := by
    have hhost : host p' = host p := (hidden_host hp').trans (hidden_host hp).symm
    rw [hhost]
    exact h.data
  own := fun y hy hown => ⟨hp', (h.own y hy hown).2⟩
  rsp := by
    intro y hy hrsp
    rw [(h.rsp y hy hrsp).1] at hp
    exact nomatch hp
  queue := by
    rintro i hi y hy
    obtain rfl := Option.mem_some_iff.mp hy
    exact hqueue i hi
  cab := by
    rintro v hv y hy
    obtain rfl := Option.mem_some_iff.mp hy
    exact hcab v hv
  tries := by
    rintro - y hy
    obtain rfl := Option.mem_some_iff.mp hy
    exact htries

/-- A free buffer, or a frame at a place where frames do not wait for the radio. -/
theorem FrameOk.plain {x : Pointer} {f : Frame} (hp : hidden p = false) (hx : x.offset = 0)
    (hf : ∀ y ∈ f, y.offset = 0)
    (hdata : ∀ y ∈ x :: f, ∃ i, y.buffer = .data i ∧ (i < txBlocks ↔ host p)) :
    FrameOk txBlocks c' p (x :: f) where
  shape := by
    rw [if_neg (by rw [hp]; exact Bool.false_ne_true)]
    exact ⟨x, f, rfl, hx, hf⟩
  data := by
    intro y hy i hi
    obtain ⟨j, hj, hhost⟩ := hdata y hy
    obtain rfl := Buffer.data.inj (hi.symm.trans hj)
    exact hhost
  own := by
    intro y hy hown
    obtain ⟨j, hj, -⟩ := hdata y hy
    rw [hj] at hown
    exact hown.elim nofun nofun
  rsp := by
    intro y hy hrsp
    obtain ⟨j, hj, -⟩ := hdata y hy
    rw [hj] at hrsp
    exact nomatch hrsp
  queue := by
    rintro i rfl
    exact nomatch hp
  cab := by
    rintro v rfl
    exact nomatch hp
  tries := fun hp' => nomatch hp.symm.trans hp'

/-- Where frames do not wait for the radio, the buffers are blocks. -/
theorem FrameOk.blocks (h : FrameOk txBlocks c p f) (hp : hidden p = false)
    (hrsp : f ≠ [⟨.rsp, 0⟩]) :
    ∀ y ∈ f, y.offset = 0 ∧ ∃ i, y.buffer = .data i ∧ (i < txBlocks ↔ host p) := by
  obtain ⟨x, g, rfl, hx, hg⟩ := h.shape
  rw [hp] at hx
  have hoffset : ∀ y ∈ x :: g, y.offset = 0 := by
    intro y hy
    rcases List.mem_cons.mp hy with rfl | hy
    · exact hx
    · exact hg y hy
  intro y hy
  refine ⟨hoffset y hy, ?_⟩
  cases hbuf : y.buffer with
  | data i => exact ⟨i, rfl, h.data y hy i hbuf⟩
  | ba => exact nomatch hp.symm.trans (h.own y hy (.inl hbuf)).1
  | cmd => exact nomatch hp.symm.trans (h.own y hy (.inr hbuf)).1
  | rsp =>
    obtain ⟨-, hsingle⟩ := h.rsp y hy hbuf
    obtain rfl : g = [] := hsingle
    obtain rfl := List.mem_singleton.mp hy
    refine absurd ?_ hrsp
    rw [← hbuf, ← hoffset y hy]

end

end DebianKernel.Carl9170
