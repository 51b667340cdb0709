import Mathlib.Data.List.Basic
import Mathlib.Order.Basic
import Mathlib.Tactic.FinCases

/-!
# The retries of a frame in the carl9170 firmware

The part of `struct carl9170_tx_superframe` that the firmware works with, and
`wlan_tx_consume_retry`: a frame that was not acknowledged is tried again at its rate until the
tries of the rate are used up, then at the next rate.

Result: `attempts_eq`, the attempts for a frame that is never acknowledged.
-/

namespace DebianKernel.Carl9170

/-- `struct ar9170_tx_rate_info`. -/
structure RateInfo where
  tries : BitVec 3
  erpProt : BitVec 2
  ampdu : Bool
  deriving DecidableEq, Repr

/-- `struct carl9170_tx_superframe`. `ri` and `rr` are arrays of four and of three; what is read
behind them is not said. -/
structure Super where
  len : BitVec 16
  rix : BitVec 8
  cnt : BitVec 8
  cookie : BitVec 8
  queue : BitVec 2
  vifId : BitVec 3
  cab : Bool
  ri : Nat → RateInfo
  rr : Nat → BitVec 32
  phy : BitVec 32
  erpProt : BitVec 2
  ampdu : Bool
  frameControl : BitVec 16

def txMaxRateTries : Nat := 7

/-- `CARL9170_TX_MAX_RETRY_RATES`. -/
def txMaxRetryRates : Nat := 3

/-- `wlan_tx_consume_retry`: the frame for the next attempt. -/
def wlanTxConsumeRetry (s : Super) : Option Super :=
  if s.cnt.toNat ≥ (s.ri s.rix.toNat).tries.toNat then
    if s.rix.toNat = txMaxRetryRates then none
    else if s.rr s.rix.toNat = 0#32 then none
    else
      let s := { s with phy := s.rr s.rix.toNat }
      let s := { s with rix := s.rix + 1 }
      let s := { s with erpProt := (s.ri s.rix.toNat).erpProt, ampdu := (s.ri s.rix.toNat).ampdu }
      some { s with cnt := 1 }
  else some { s with cnt := s.cnt + 1 }

/-- What `wlan_tx` sets before the first attempt. -/
def Super.start (s : Super) : Super := { s with rix := 0, cnt := 1 }

/-- The frame in each of its attempts, when none is acknowledged. -/
def attempts : Nat → Super → List Super
  | 0, _ => []
  | n + 1, s =>
    match wlanTxConsumeRetry s with
    | none => [s]
    | some s' => s :: attempts n s'

/-- The tries at rate `i`. A rate without tries is tried once. -/
def Super.triesOf (s : Super) (i : Nat) : Nat := max 1 (s.ri i).tries.toNat

/-- The rates that are tried: one after the other, up to the first that names no other. -/
def Super.rates (s : Super) : List Nat :=
  List.range (1 + ([0, 1, 2].takeWhile fun i => s.rr i ≠ 0#32).length)

/-- The frame at try `c` of rate `i`. -/
def Super.atTry (s : Super) (i c : Nat) : Super :=
  match i with
  | 0 => { s with rix := 0, cnt := BitVec.ofNat 8 c }
  | j + 1 =>
    { s with rix := BitVec.ofNat 8 (j + 1), cnt := BitVec.ofNat 8 c, phy := s.rr j,
             erpProt := (s.ri (j + 1)).erpProt, ampdu := (s.ri (j + 1)).ampdu }

def Super.atRate (s : Super) (i : Nat) : List Super :=
  (List.range' 1 (s.triesOf i)).map (s.atTry i)

section

variable (s : Super) {i c : Nat}

theorem triesOf_le : s.triesOf i ≤ txMaxRateTries := by
  have hlt := (s.ri i).tries.isLt
  rw [Super.triesOf, txMaxRateTries]
  omega

theorem atTry_rix (hi : i ≤ txMaxRetryRates) : (s.atTry i c).rix.toNat = i := by
  have hlt : i < 2 ^ 8 := lt_of_le_of_lt hi (show txMaxRetryRates < 2 ^ 8 by decide)
  cases i with
  | zero => rfl
  | succ j => exact Nat.mod_eq_of_lt hlt

theorem atTry_cnt (hc : c ≤ txMaxRateTries) : (s.atTry i c).cnt.toNat = c := by
  have hlt : c < 2 ^ 8 := lt_of_le_of_lt hc (show txMaxRateTries < 2 ^ 8 by decide)
  cases i <;> exact Nat.mod_eq_of_lt hlt

theorem atTry_tables : (s.atTry i c).ri = s.ri ∧ (s.atTry i c).rr = s.rr := by
  cases i <;> exact ⟨rfl, rfl⟩

/-- One more try at the same rate. -/
theorem consume_same (hi : i ≤ txMaxRetryRates) (hc : 1 ≤ c) (hlt : c < s.triesOf i) :
    wlanTxConsumeRetry (s.atTry i c) = some (s.atTry i (c + 1)) := by
  have hle := triesOf_le s (i := i)
  have hcnt := atTry_cnt s (i := i) (c := c) (by omega)
  have hmore : ¬c ≥ (s.ri i).tries.toNat := by
    rw [Super.triesOf] at hlt
    omega
  rw [wlanTxConsumeRetry, hcnt, atTry_rix s hi, (atTry_tables s).1, if_neg hmore]
  have hsucc : BitVec.ofNat 8 (c + 1) = BitVec.ofNat 8 c + 1 := BitVec.ofNat_add c 1
  cases i <;> simp only [Super.atTry, hsucc]

/-- The tries of the rate are used up. -/
theorem consume_next (hi : i ≤ txMaxRetryRates) :
    wlanTxConsumeRetry (s.atTry i (s.triesOf i)) =
      if i = txMaxRetryRates ∨ s.rr i = 0#32 then none else some (s.atTry (i + 1) 1) := by
  have hcnt := atTry_cnt s (i := i) (triesOf_le s (i := i))
  have hdone : s.triesOf i ≥ (s.ri i).tries.toNat := Nat.le_max_right _ _
  rw [wlanTxConsumeRetry, hcnt, atTry_rix s hi, (atTry_tables s).1, (atTry_tables s).2,
    if_pos hdone]
  rcases eq_or_ne i txMaxRetryRates with hlast | hmore
  · rw [if_pos hlast, if_pos (.inl hlast)]
  · rw [if_neg hmore]
    rcases eq_or_ne (s.rr i) 0#32 with hnone | hsome
    · rw [if_pos hnone, if_pos (.inr hnone)]
    · have hrix : ((s.atTry i (s.triesOf i)).rix + 1).toNat = i + 1 := by
        have hlt : i + 1 < 2 ^ 8 := by
          rw [txMaxRetryRates] at hi
          omega
        rw [BitVec.toNat_add, atTry_rix s hi]
        exact Nat.mod_eq_of_lt hlt
      have hrix' : (s.atTry i (s.triesOf i)).rix + 1 = BitVec.ofNat 8 (i + 1) := by
        rw [← hrix, BitVec.ofNat_toNat, BitVec.setWidth_eq]
      rw [if_neg hsome, if_neg (not_or.mpr ⟨hmore, hsome⟩)]
      dsimp only
      rw [hrix, hrix']
      cases i <;> rfl

/-- The tries from `c` on, and what follows them. -/
theorem attempts_rate (hi : i ≤ txMaxRetryRates) {m : Nat} (hc : 1 ≤ c)
    (hm : c + m = s.triesOf i) (n : Nat) :
    attempts (m + 1 + n) (s.atTry i c) = (List.range' c (m + 1)).map (s.atTry i) ++
      if i = txMaxRetryRates ∨ s.rr i = 0#32 then [] else attempts n (s.atTry (i + 1) 1) := by
  induction m generalizing c with
  | zero =>
    have hcount : c = s.triesOf i := hm
    have hnext := consume_next s hi
    rw [Nat.zero_add, Nat.add_comm 1 n, attempts, hcount, hnext, List.range'_one,
      List.map_singleton]
    split_ifs <;> rfl
  | succ m ih =>
    have hsame := consume_same s hi hc (by omega)
    have hfuel : m + 1 + 1 + n = (m + 1 + n) + 1 := by omega
    rw [hfuel, attempts, hsame]
    dsimp only
    rw [ih (by omega) (by omega), List.range'_succ (s := c), List.map_cons, List.cons_append]

theorem attempts_atRate (hi : i ≤ txMaxRetryRates) (n : Nat) :
    attempts (s.triesOf i + n) (s.atTry i 1) = s.atRate i ++
      if i = txMaxRetryRates ∨ s.rr i = 0#32 then [] else attempts n (s.atTry (i + 1) 1) := by
  have hpos : 1 ≤ s.triesOf i := Nat.le_max_left _ _
  obtain ⟨m, hm⟩ := Nat.exists_eq_add_of_le hpos
  have hrun := attempts_rate s hi (Nat.le_refl 1) hm.symm n
  rw [Super.atRate, hm, Nat.add_comm 1 m]
  exact hrun

end

/-- What all attempts have in common. -/
theorem atRate_bounds (s : Super) {i : Nat} (hi : i ≤ txMaxRetryRates) :
    ∀ s' ∈ s.atRate i, s'.rix.toNat ≤ txMaxRetryRates ∧ 1 ≤ s'.cnt.toNat ∧
      s'.cnt.toNat ≤ txMaxRateTries := by
  intro s' hs'
  obtain ⟨c, hc, rfl⟩ := List.mem_map.mp hs'
  have hle := triesOf_le s (i := i)
  rw [List.mem_range'_1] at hc
  have hmax : c ≤ txMaxRateTries := by omega
  rw [atTry_rix s hi, atTry_cnt s hmax]
  exact ⟨hi, hc.1, hmax⟩

theorem rates_eq (s : Super) : s.rates =
    if s.rr 0 = 0#32 then [0] else if s.rr 1 = 0#32 then [0, 1]
    else if s.rr 2 = 0#32 then [0, 1, 2] else [0, 1, 2, 3] := by
  rw [Super.rates]
  split_ifs with hr0 hr1 hr2
  · simp [hr0]
  · simp [hr0, hr1, List.range_succ]
  · simp [hr0, hr1, hr2, List.range_succ]
  · simp [hr0, hr1, hr2, List.range_succ]

theorem mem_rates {s : Super} {i : Nat} (hi : i ∈ s.rates) : i ≤ txMaxRetryRates := by
  rw [rates_eq] at hi
  split_ifs at hi <;> fin_cases hi <;> decide

/-- A frame that is never acknowledged is tried at each of its rates in turn, as often as the rate
says, and is then given up. -/
theorem attempts_eq (s : Super) {fuel : Nat} (hfuel : 28 ≤ fuel) :
    attempts fuel s.start = s.rates.flatMap s.atRate ∧
      ∀ s' ∈ attempts fuel s.start, s'.rix.toNat ≤ txMaxRetryRates ∧ 1 ≤ s'.cnt.toNat ∧
        s'.cnt.toNat ≤ txMaxRateTries := by
  have hall : attempts fuel s.start = s.rates.flatMap s.atRate := by
    have htries : ∀ i, s.triesOf i ≤ 7 := fun i => triesOf_le s
    have h0 := htries 0
    have h1 := htries 1
    have h2 := htries 2
    have h3 := htries 3
    obtain ⟨n, hn⟩ := Nat.exists_eq_add_of_le
      (show s.triesOf 0 + (s.triesOf 1 + (s.triesOf 2 + s.triesOf 3)) ≤ fuel by omega)
    have hsplit : fuel = s.triesOf 0 + (s.triesOf 1 + (s.triesOf 2 + (s.triesOf 3 + n))) := by
      omega
    have hstart : s.start = s.atTry 0 1 := rfl
    have hne : ∀ i < 3, i ≠ txMaxRetryRates := fun i hi => Nat.ne_of_lt hi
    rw [hsplit, hstart, attempts_atRate s (by decide), rates_eq]
    rcases eq_or_ne (s.rr 0) 0#32 with hr0 | hr0
    · rw [if_pos (.inr hr0), if_pos hr0, List.flatMap_singleton, List.append_nil]
    rw [if_neg (not_or.mpr ⟨hne 0 (by decide), hr0⟩), if_neg hr0, attempts_atRate s (by decide)]
    rcases eq_or_ne (s.rr 1) 0#32 with hr1 | hr1
    · rw [if_pos (.inr hr1), if_pos hr1, List.flatMap_cons, List.flatMap_singleton,
        List.append_nil]
    rw [if_neg (not_or.mpr ⟨hne 1 (by decide), hr1⟩), if_neg hr1, attempts_atRate s (by decide)]
    rcases eq_or_ne (s.rr 2) 0#32 with hr2 | hr2
    · rw [if_pos (.inr hr2), if_pos hr2, List.flatMap_cons, List.flatMap_cons,
        List.flatMap_singleton, List.append_nil]
    rw [if_neg (not_or.mpr ⟨hne 2 (by decide), hr2⟩), if_neg hr2, attempts_atRate s (by decide),
      if_pos (.inl rfl), List.flatMap_cons, List.flatMap_cons, List.flatMap_cons,
      List.flatMap_singleton, List.append_nil]
  refine ⟨hall, fun s' hs' => ?_⟩
  rw [hall, List.mem_flatMap] at hs'
  obtain ⟨i, hi, hs'⟩ := hs'
  exact atRate_bounds s (mem_rates hi) s' hs'

/-- Two rates, with two tries and three. -/
def twoRates : Super :=
  { len := 40, rix := 0, cnt := 0, cookie := 1, queue := 0, vifId := 0, cab := false
    ri := fun i => if i = 0 then ⟨2, 0, false⟩ else ⟨3, 1, true⟩
    rr := fun i => if i = 0 then 7 else 0
    phy := 3, erpProt := 0, ampdu := false, frameControl := 0 }

theorem attempts_eq_twoRates : attempts 28 twoRates.start = twoRates.rates.flatMap twoRates.atRate ∧
    ∀ s' ∈ attempts 28 twoRates.start, s'.rix.toNat ≤ txMaxRetryRates ∧ 1 ≤ s'.cnt.toNat ∧
      s'.cnt.toNat ≤ txMaxRateTries :=
  attempts_eq twoRates (by decide)

end DebianKernel.Carl9170
