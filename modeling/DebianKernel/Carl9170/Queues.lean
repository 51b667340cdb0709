import DebianKernel.Carl9170.Dma
import DebianKernel.Lib.Shares

/-!
# Several queues over one memory

The queues of the firmware share one memory. `Sound U h q ps loose`: every descriptor of `U` is in
exactly one queue or in exactly one of the packets that are in no queue.

Results: `Sound.unlink`, `Sound.put`, `Sound.reclaim` (a packet leaves a queue or comes to one),
`Visited.split` (what a walk along the packets of a queue visits).
-/

namespace DebianKernel.Carl9170

open Chain Shares

variable {β ι : Type} [Fintype ι]

/-- Packets that are in no queue: the first descriptor and the others. -/
abbrev Loose := List (Addr × List Addr)

def looseAddrs (loose : Loose) : Multiset Addr := (loose.map fun x => x.1 :: x.2).flatten

def queueAddrs (q : ι → Queue) (ps : ι → List (List Addr)) (i : ι) : Multiset Addr :=
  addrs (q i) (ps i)

structure Sound (U : Multiset Addr) (h : Heap β) (q : ι → Queue) (ps : ι → List (List Addr))
    (loose : Loose) : Prop where
  holds : ∀ i, Holds h (q i) (ps i)
  packet : ∀ x ∈ loose, Packet h x.1 x.2
  whole : looseAddrs loose + total (queueAddrs q ps) = U
  nodup : U.Nodup

variable {U : Multiset Addr} {h h' : Heap β} {q : ι → Queue} {ps : ι → List (List Addr)}
  {loose loose' : Loose} {i j : ι} {d : Addr} {ds : List Addr} {rest : List (List Addr)}
  {fuel : Nat}

theorem looseAddrs_cons (x : Addr × List Addr) (loose : Loose) :
    looseAddrs (x :: loose) = ↑(x.1 :: x.2) + looseAddrs loose := rfl

theorem looseAddrs_perm (hperm : loose.Perm loose') : looseAddrs loose = looseAddrs loose' :=
  Multiset.coe_eq_coe.mpr (hperm.map _).flatten

theorem Sound.perm (hs : Sound U h q ps loose) (hperm : loose.Perm loose') :
    Sound U h q ps loose' where
  holds := hs.holds
  packet := fun x hx => hs.packet x (hperm.mem_iff.mpr hx)
  whole := by rw [← looseAddrs_perm hperm, hs.whole]
  nodup := hs.nodup

theorem Sound.parts_nodup (hs : Sound U h q ps loose) :
    (looseAddrs loose).Nodup ∧ (total (queueAddrs q ps)).Nodup ∧
      ∀ a ∈ looseAddrs loose, a ∉ total (queueAddrs q ps) := by
  have hnodup := hs.nodup
  rw [← hs.whole, Multiset.nodup_add] at hnodup
  obtain ⟨hloose, hqueues, hdisjoint⟩ := hnodup
  exact ⟨hloose, hqueues, fun a ha => Multiset.disjoint_left.mp hdisjoint ha⟩

/-- The packets in the queues are not loose. -/
theorem Sound.apart (hs : Sound U h q ps loose) (hx : (d, ds) ∈ loose) (i : ι) :
    Apart d ds (q i) (ps i) := by
  refine ⟨fun a ha hmem => ?_⟩
  have hin : a ∈ looseAddrs loose :=
    List.mem_flatten.mpr ⟨d :: ds, List.mem_map.mpr ⟨(d, ds), hx, rfl⟩, ha⟩
  exact hs.parts_nodup.2.2 a hin (mem_total.mpr ⟨i, hmem⟩)

/-- No descriptor is in two loose packets. -/
theorem Sound.loose_disjoint {x : Addr × List Addr} (hs : Sound U h q ps (x :: loose))
    {y : Addr × List Addr} (hy : y ∈ loose) {a : Addr} (ha : a ∈ x.1 :: x.2) :
    a ∉ y.1 :: y.2 := by
  have hnodup := hs.parts_nodup.1
  rw [looseAddrs_cons, Multiset.nodup_add] at hnodup
  intro hmem
  have hin : a ∈ looseAddrs loose :=
    List.mem_flatten.mpr ⟨y.1 :: y.2, List.mem_map.mpr ⟨y, hy, rfl⟩, hmem⟩
  exact Multiset.disjoint_left.mp hnodup.2.2 ha hin

theorem Sound.length_lt (hs : Sound U h q ps loose) (hx : (d, ds) ∈ loose)
    (hfuel : U.card ≤ fuel) : ds.length < fuel := by
  have hle : (↑(d :: ds) : Multiset Addr) ≤ U := by
    rw [Multiset.le_iff_subset (Multiset.coe_nodup.mpr (hs.packet _ hx).nodup), ← hs.whole]
    intro a ha
    refine Multiset.mem_add.mpr (.inl ?_)
    exact List.mem_flatten.mpr ⟨d :: ds, List.mem_map.mpr ⟨(d, ds), hx, rfl⟩, ha⟩
  have hcard := Multiset.card_le_card hle
  rw [Multiset.coe_card, List.length_cons] at hcard
  omega

/-- A change of the memory that leaves the links. -/
theorem Sound.touch (hs : Sound U h q ps loose)
    (hlinks : ∀ a, (h' a).nextAddr = (h a).nextAddr ∧ (h' a).lastAddr = (h a).lastAddr) :
    Sound U h' q ps loose where
  holds := fun i => (hs.holds i).congr (fun a _ => (hlinks a).1) fun a _ => (hlinks a).2
  packet := fun x hx => (hs.packet x hx).congr (fun a _ => (hlinks a).1) (hlinks x.1).2
  whole := hs.whole
  nodup := hs.nodup

/-- The packets that stay loose while `(d, ds)` goes behind the terminator of queue `i`. -/
theorem Sound.packets_stay (hs : Sound U h q ps ((d, ds) :: loose))
    (hframe : ∀ a ∉ (q i).terminator :: d :: ds, h' a = h a) :
    ∀ x ∈ loose, Packet h' x.1 x.2 := by
  intro x hx
  have hsame : ∀ a ∈ x.1 :: x.2, h' a = h a := by
    intro a ha
    refine hframe a fun hmem => ?_
    rcases List.mem_cons.mp hmem with rfl | hmem
    · exact (hs.apart (List.mem_cons_of_mem _ hx) i).terminator ha
    · exact hs.loose_disjoint hx hmem ha
  exact (hs.packet x (List.mem_cons_of_mem _ hx)).congr (fun a ha => by rw [hsame a ha])
    (by rw [hsame x.1 List.mem_cons_self])

variable [DecidableEq ι]

/-- No descriptor is in two queues. -/
theorem Sound.queues_disjoint (hs : Sound U h q ps loose) (hij : i ≠ j) {a : Addr}
    (ha : a ∈ addrs (q i) (ps i)) : a ∉ addrs (q j) (ps j) :=
  not_mem_of_nodup (f := queueAddrs q ps) hs.parts_nodup.2.1 hij ha

/-- The shares after one queue changes. -/
theorem total_queueAddrs_update (q : ι → Queue) (ps : ι → List (List Addr)) (i : ι) (q' : Queue)
    (p' : List (List Addr)) :
    total (queueAddrs (Function.update q i q') (Function.update ps i p')) +
      (addrs (q i) (ps i) : Multiset Addr) = total (queueAddrs q ps) + ↑(addrs q' p') := by
  have hchange := total_change (f := queueAddrs (Function.update q i q') (Function.update ps i p'))
    (g := queueAddrs q ps) (i := i) fun j hj => by
      rw [queueAddrs, queueAddrs, Function.update_of_ne hj, Function.update_of_ne hj]
  rw [queueAddrs, queueAddrs, Function.update_self, Function.update_self] at hchange
  exact hchange

/-- One queue changes, the others are not touched. -/
theorem Sound.update {X : Addr → Prop} {q' : Queue} {p' : List (List Addr)}
    (hs : Sound U h q ps loose) (hhold : Holds h' q' p') (hframe : ∀ a, ¬X a → h' a = h a)
    (hX : ∀ a, X a → ∀ j ≠ i, a ∉ addrs (q j) (ps j)) :
    ∀ j, Holds h' (Function.update q i q' j) (Function.update ps i p' j) := by
  intro j
  rcases eq_or_ne j i with rfl | hj
  · rw [Function.update_self, Function.update_self]
    exact hhold
  · rw [Function.update_of_ne hj, Function.update_of_ne hj]
    have hsame : ∀ a ∈ addrs (q j) (ps j), h' a = h a := fun a ha =>
      hframe a fun hx => hX a hx j hj ha
    exact (hs.holds j).congr (fun a ha => by rw [hsame a ha]) fun a ha => by rw [hsame a ha]

theorem Sound.unlink (hs : Sound U h q ps loose) (hp : ps i = (d :: ds) :: rest) :
    ∃ h' q', dmaUnlinkHead h (q i) = some (h', q', d) ∧
      Sound U h' (Function.update q i q') (Function.update ps i rest) ((d, ds) :: loose) ∧
      (∀ a, (h' a).dataAddr = (h a).dataAddr ∧ (h' a).status = (h a).status) ∧
      ∀ a ∉ d :: ds, h' a = h a := by
  have hhold := hs.holds i
  rw [hp] at hhold
  obtain ⟨h', q', heq, hterm, hrest, hpacket, -, hdata, hframe⟩ := hhold.unlink
  have hin : ∀ a ∈ d :: ds, a ∈ addrs (q i) (ps i) := fun a ha => by
    rw [hp]
    exact List.mem_append_left _ (List.mem_flatten_of_mem List.mem_cons_self ha)
  refine ⟨h', q', heq, ⟨hs.update (X := (· ∈ d :: ds)) hrest hframe fun a ha j hj =>
    hs.queues_disjoint hj.symm (hin a ha), fun x hx => ?_, ?_, hs.nodup⟩, hdata, hframe⟩
  · rcases List.mem_cons.mp hx with rfl | hx
    · exact hpacket
    · have hloose : (x.1, x.2) ∈ loose := hx
      have hsame : ∀ a ∈ x.1 :: x.2, h' a = h a := fun a ha => hframe a fun hmem =>
        (hs.apart hloose i).disjoint a ha (hin a hmem)
      exact (hs.packet x hx).congr (fun a ha => by rw [hsame a ha])
        (by rw [hsame x.1 List.mem_cons_self])
  · have htotal := total_queueAddrs_update q ps i q' rest
    have hsplit : (addrs (q i) (ps i) : Multiset Addr) = ↑(d :: ds) + ↑(addrs q' rest) := by
      rw [hp, addrs, addrs, hterm, List.flatten_cons, List.append_assoc]
      rfl
    rw [hsplit, add_left_comm, ← add_assoc, add_comm (total (queueAddrs q ps))] at htotal
    have htotal' := add_right_cancel (htotal.trans (add_comm _ _))
    rw [looseAddrs_cons, add_right_comm, htotal', add_comm, hs.whole]

/-- What changes when `(d, ds)` goes to queue `i` is in no other queue. -/
theorem Sound.changed_apart (hs : Sound U h q ps ((d, ds) :: loose)) :
    ∀ a ∈ (q i).terminator :: d :: ds, ∀ j ≠ i, a ∉ addrs (q j) (ps j) := by
  intro a ha j hj
  rcases List.mem_cons.mp ha with rfl | ha
  · exact hs.queues_disjoint hj.symm (List.mem_append_right _ List.mem_cons_self)
  · exact (hs.apart List.mem_cons_self j).disjoint a ha

theorem addrs_exchange {p' : List (List Addr)} {t : Addr} {p : List (List Addr)} {head : Addr}
    (hp' : p'.flatten = p.flatten ++ t :: ds) :
    (addrs ⟨head, d⟩ p' : Multiset Addr) = ↑(d :: ds) + ↑(p.flatten ++ [t]) := by
  rw [addrs, hp', ← Multiset.coe_add, ← Multiset.coe_add, ← Multiset.coe_add,
    ← Multiset.cons_coe t ds, ← Multiset.cons_coe d ds, ← Multiset.cons_coe t [],
    ← Multiset.singleton_add d, ← Multiset.singleton_add t, ← Multiset.singleton_add t]
  abel

theorem Sound.whole_exchange {p' : List (List Addr)} (hs : Sound U h q ps ((d, ds) :: loose))
    (hp' : p'.flatten = (ps i).flatten ++ (q i).terminator :: ds) :
    looseAddrs loose + total (queueAddrs (Function.update q i ⟨(q i).head, d⟩)
      (Function.update ps i p')) = U := by
  have htotal := total_queueAddrs_update q ps i ⟨(q i).head, d⟩ p'
  rw [addrs_exchange hp', ← addrs, ← add_assoc] at htotal
  have htotal' := add_right_cancel htotal
  rw [htotal', ← hs.whole, looseAddrs_cons]
  abel

theorem Sound.put (hs : Sound U h q ps ((d, ds) :: loose)) (hfuel : U.card ≤ fuel) (i : ι) :
    ∃ h', dmaPut fuel h (q i) d = some (h', ⟨(q i).head, d⟩) ∧
      Sound U h' (Function.update q i ⟨(q i).head, d⟩)
        (Function.update ps i (ps i ++ [(q i).terminator :: ds])) loose ∧
      payload h' ((q i).terminator :: ds) = payload h (d :: ds) ∧
      ∀ a ∉ (q i).terminator :: d :: ds, h' a = h a := by
  have hpacket := hs.packet _ List.mem_cons_self
  obtain ⟨h', heq, hhold, hfirst, hdata, -, -, hframe⟩ := (hs.holds i).put hpacket
    (hs.apart List.mem_cons_self i) (hs.length_lt List.mem_cons_self hfuel)
  have hflat : (ps i ++ [(q i).terminator :: ds]).flatten =
      (ps i).flatten ++ (q i).terminator :: ds := by
    rw [List.flatten_append, List.flatten_singleton]
  refine ⟨h', heq, ⟨hs.update (X := (· ∈ (q i).terminator :: d :: ds)) hhold hframe
    hs.changed_apart, hs.packets_stay hframe, hs.whole_exchange hflat, hs.nodup⟩, ?_, hframe⟩
  rw [payload, payload, List.map_cons, List.map_cons, hfirst]
  exact congrArg _ (List.map_congr_left hdata)

theorem Sound.reclaim (hs : Sound U h q ps ((d, ds) :: loose)) (hfuel : U.card ≤ fuel) (i : ι) :
    ∃ h', dmaReclaim fuel h (q i) d = some (h', ⟨(q i).head, d⟩) ∧
      Sound U h' (Function.update q i ⟨(q i).head, d⟩)
        (Function.update ps i (ps i ++ ((q i).terminator :: ds).map fun a => [a])) loose ∧
      payload h' ((q i).terminator :: ds) = payload h (d :: ds) ∧
      ∀ a ∉ (q i).terminator :: d :: ds, h' a = h a := by
  have hpacket := hs.packet _ List.mem_cons_self
  obtain ⟨h', heq, hhold, hfirst, hdata, -, -, hframe⟩ := (hs.holds i).reclaim hpacket
    (hs.apart List.mem_cons_self i) (hs.length_lt List.mem_cons_self hfuel)
  have hflat : (ps i ++ ((q i).terminator :: ds).map fun a => [a]).flatten =
      (ps i).flatten ++ (q i).terminator :: ds := by
    rw [List.flatten_append, flatten_map_singleton]
  refine ⟨h', heq, ⟨hs.update (X := (· ∈ (q i).terminator :: d :: ds)) hhold hframe
    hs.changed_apart, hs.packets_stay hframe, hs.whole_exchange hflat, hs.nodup⟩, ?_, hframe⟩
  rw [payload, payload, List.map_cons, List.map_cons, hfirst]
  exact congrArg _ (List.map_congr_left hdata)

/-! ## Walks along the packets -/

/-- The descriptors that a walk along the first descriptors of packets visits. -/
inductive Visited (h : Heap β) (q : Queue) : Addr → Prop
  | head : q.head ≠ q.terminator → Visited h q q.head
  | behind {d : Addr} : Visited h q d → (h (h d).lastAddr).nextAddr ≠ q.terminator →
      Visited h q (h (h d).lastAddr).nextAddr

/-- What stands behind a packet. -/
theorem Holds.behind {q : Queue} {pre post : List (List Addr)}
    (hq : Holds h q (pre ++ (d :: ds) :: post)) :
    Path (next h) (next h (ds.getLastD d)) post.flatten q.terminator ∧
      (h d).lastAddr = ds.getLastD d := by
  have hchain := hq.chain
  rw [List.flatten_append, List.flatten_cons, path_append] at hchain
  obtain ⟨b, -, hrest⟩ := hchain
  rw [path_append] at hrest
  obtain ⟨c, hpacket, hpost⟩ := hrest
  obtain ⟨init, hinit⟩ := exists_concat_getLastD d ds
  rw [hinit, path_concat] at hpacket
  rw [hpacket.2]
  obtain ⟨e, es, heq, hlast⟩ := hq.last (d :: ds) (List.mem_append_right _ List.mem_cons_self)
  obtain ⟨rfl, rfl⟩ := List.cons.inj heq
  exact ⟨hpost, hlast⟩

theorem Visited.split {q : Queue} {p : List (List Addr)} (hv : Visited h q d) (hq : Holds h q p) :
    ∃ pre ds post, p = pre ++ (d :: ds) :: post := by
  induction hv with
  | head hne =>
    cases p with
    | nil => exact absurd hq.chain hne
    | cons pk p =>
      obtain ⟨e, es, rfl, -⟩ := hq.last pk List.mem_cons_self
      have hhead : q.head = e := hq.chain.head_eq
      exact ⟨[], es, p, by rw [hhead]; rfl⟩
  | @behind e _ hne ih =>
    obtain ⟨pre, ds, post, rfl⟩ := ih
    obtain ⟨hpost, hlast⟩ := hq.behind
    rw [hlast] at hne ⊢
    cases post with
    | nil => exact absurd hpost hne
    | cons pk post =>
      have hmem : pk ∈ pre ++ (e :: ds) :: pk :: post :=
        List.mem_append_right _ (List.mem_cons_of_mem _ List.mem_cons_self)
      obtain ⟨f, fs, rfl, -⟩ := hq.last pk hmem
      have hhead : next h (ds.getLastD e) = f := hpost.head_eq
      refine ⟨pre ++ [e :: ds], fs, post, ?_⟩
      rw [← hhead, List.append_assoc]
      rfl

end DebianKernel.Carl9170
