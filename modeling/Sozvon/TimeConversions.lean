import Sozvon.RtpTime

/-!
# Conversions of time on machine words

A product of two words has 128 bits, and the division of it panics when the quotient does not fit
into a word. Durations are signed words of nanoseconds.
-/
namespace Sozvon.TimeConversions
open RtpTime

/-- `bits.Mul64`: the high and the low word of the product. -/
def mul64 (x y : UInt64) : UInt64 × UInt64 :=
  (UInt64.ofNat (x.toNat * y.toNat / 2 ^ 64), x * y)

/-- `bits.Div64`: quotient and remainder, and `none` for a panic. -/
def div64 (hi lo y : UInt64) : Option (UInt64 × UInt64) :=
  if y ≤ hi then none
  else
    let x := hi.toNat * 2 ^ 64 + lo.toNat
    some (UInt64.ofNat (x / y.toNat), UInt64.ofNat (x % y.toNat))

/-- What both conversions do with a number that is not negative. -/
def scale (x mul div : UInt64) : Option Int64 :=
  let (hi, lo) := mul64 x mul
  match div64 hi lo div with
  | none => none
  | some (q, _) => some q.toInt64

/-- `time.Duration.Abs` -/
def abs (d : Int64) : Int64 :=
  if 0 ≤ d then d else if d = Int64.minValue then Int64.maxValue else -d

def fromDuration (d : Int64) (hz : UInt32) : Option Int64 :=
  if d < 0 then (scale (abs d).toUInt64 hz.toUInt64 1000000000).map (- ·)
  else scale d.toUInt64 hz.toUInt64 1000000000

/-- The least number is its own negative, and of it the source never returns. -/
def toDuration (tm : Int64) (hz : UInt32) : Option Int64 :=
  if tm < 0 then
    if -tm < 0 then none else (scale (-tm).toUInt64 1000000000 hz.toUInt64).map (- ·)
  else scale tm.toUInt64 1000000000 hz.toUInt64

theorem mul64_toNat (x y : UInt64) :
    (mul64 x y).1.toNat * 2 ^ 64 + (mul64 x y).2.toNat = x.toNat * y.toNat := by
  have hx := x.toNat_lt
  have hy := y.toNat_lt
  have hprod : x.toNat * y.toNat < 2 ^ 64 * 2 ^ 64 := Nat.mul_lt_mul'' hx hy
  have hhi : x.toNat * y.toNat / 2 ^ 64 < 2 ^ 64 := Nat.div_lt_of_lt_mul hprod
  rw [mul64, UInt64.toNat_ofNat_of_lt' hhi, UInt64.toNat_mul]
  exact Nat.div_add_mod' _ _

/-- The duration that is converted: the least one is taken for the one above it. -/
def clamp (d : ℤ) : ℤ := max d (-(2 ^ 63 - 1))

theorem toNat_toUInt64 {d : Int64} (h : 0 ≤ d.toInt) : (d.toUInt64.toNat : ℤ) = d.toInt := by
  have hlt := d.toInt_lt
  have hbits : d.toInt = (d.toUInt64.toNat : ℤ).bmod (2 ^ 64) := BitVec.toInt_eq_toNat_bmod _
  have hword := d.toUInt64.toNat_lt
  rcases Nat.lt_or_ge d.toUInt64.toNat (2 ^ 63) with hsmall | hbig
  · rw [hbits]
    exact (Int.bmod_eq_of_le (by omega) (by omega)).symm
  · exfalso
    have hneg : (d.toUInt64.toNat : ℤ).bmod (2 ^ 64) = d.toUInt64.toNat - 2 ^ 64 := by
      rw [Int.bmod_def]
      omega
    omega

theorem toInt_neg_of_ne {d : Int64} (h : -2 ^ 63 < d.toInt) : (-d).toInt = -d.toInt := by
  have hlt := d.toInt_lt
  rw [Int64.toInt_neg]
  exact Int.bmod_eq_of_le (by omega) (by omega)

theorem toNat_abs (d : Int64) : ((abs d).toUInt64.toNat : ℤ) = |clamp d.toInt| := by
  have hlt := d.toInt_lt
  have hle := d.le_toInt
  rw [abs, clamp]
  split_ifs with hpos hmin
  · have hd : 0 ≤ d.toInt := Int64.le_iff_toInt_le.1 hpos
    rw [toNat_toUInt64 hd, max_eq_left (by omega), abs_of_nonneg hd]
  · subst hmin
    decide
  · have hne : d.toInt ≠ Int64.minValue.toInt := fun heq => hmin (Int64.toInt_inj.1 heq)
    rw [Int64.toInt_minValue] at hne
    have hd : d.toInt < 0 := Int.not_le.1 fun h => hpos (Int64.le_iff_toInt_le.2 h)
    have hneg := toInt_neg_of_ne (d := d) (by omega)
    rw [toNat_toUInt64 (by omega), hneg, max_eq_left (by omega), abs_of_neg hd]

/-- The division goes through when the product is small enough, and then it is exact. -/
theorem scale_of_nonneg {x mul div : UInt64} {c : ℤ} (hc : 0 ≤ c) (hx : (x.toNat : ℤ) = c)
    (hdiv : 0 < div.toNat) (hmax : c * mul.toNat < 2 ^ 63 * div.toNat) :
    ∃ r, scale x mul div = some r ∧ r.toInt = (c * mul.toNat).tdiv div.toNat := by
  subst hx
  norm_cast at hmax
  have hprod := mul64_toNat x mul
  have hno : ¬ div ≤ (mul64 x mul).1 := by
    rw [UInt64.le_iff_toNat_le]
    omega
  refine ⟨(UInt64.ofNat (x.toNat * mul.toNat / div.toNat)).toInt64, ?_, ?_⟩
  · simp only [scale, div64, if_neg hno, hprod]
  · have hquot : x.toNat * mul.toNat / div.toNat < 2 ^ 63 := (Nat.div_lt_iff_lt_mul hdiv).2 hmax
    rw [UInt64.toInt64_ofNat', Int64.toInt_ofNat_of_lt hquot]
    push_cast
    exact (Int.tdiv_eq_ediv_of_nonneg (by positivity)).symm

/-- What is converted by its magnitude has its sign again. -/
theorem scale_of_neg {x mul div : UInt64} {c : ℤ} (hc : c < 0) (hx : (x.toNat : ℤ) = -c)
    (hdiv : 0 < div.toNat) (hmax : -c * mul.toNat < 2 ^ 63 * div.toNat) :
    ∃ r, (scale x mul div).map (- ·) = some r ∧ r.toInt = (c * mul.toNat).tdiv div.toNat := by
  obtain ⟨r, hr, hval⟩ := scale_of_nonneg (by omega) hx hdiv hmax
  rw [neg_mul, Int.neg_tdiv] at hval
  have hsign : (c * mul.toNat).tdiv div.toNat ≤ 0 := by
    have hpos : 0 ≤ (-c * mul.toNat).tdiv div.toNat :=
      Int.tdiv_nonneg (mul_nonneg (by omega) (Int.natCast_nonneg _)) (Int.natCast_nonneg _)
    rw [neg_mul, Int.neg_tdiv] at hpos
    omega
  refine ⟨-r, by rw [hr]; rfl, ?_⟩
  rw [toInt_neg_of_ne (by omega), hval, neg_neg]

theorem toNat_rate (hz : UInt32) : hz.toUInt64.toNat = hz.toNat := UInt32.toNat_toUInt64 hz

theorem neg_of_lt {d : Int64} (h : d < 0) : d.toInt < 0 := Int64.lt_iff_toInt_lt.1 h

theorem nonneg_of_not_lt {d : Int64} (h : ¬ d < 0) : 0 ≤ d.toInt :=
  Int.not_lt.1 fun hlt => h (Int64.lt_iff_toInt_lt.2 hlt)

theorem abs_clamp_lt (d : Int64) : |clamp d.toInt| < 2 ^ 63 := by
  have hlt := d.toInt_lt
  have hle := d.le_toInt
  rw [clamp, abs_lt]
  omega

/-- A rate of at most one for each nanosecond does not enlarge the number. -/
theorem fromDuration_eq (d : Int64) {hz : UInt32} (hmax : hz.toNat ≤ 1000000000) :
    ∃ q, fromDuration d hz = some q ∧ q.toInt = RtpTime.fromDuration (clamp d.toInt) hz.toNat := by
  have hlt := abs_clamp_lt d
  have hfits : |clamp d.toInt| * hz.toUInt64.toNat < 2 ^ 63 * (1000000000 : ℕ) := by
    rw [toNat_rate]
    calc |clamp d.toInt| * hz.toNat
        ≤ |clamp d.toInt| * (1000000000 : ℕ) :=
          mul_le_mul_of_nonneg_left (Int.ofNat_le.2 hmax) (abs_nonneg _)
      _ < 2 ^ 63 * (1000000000 : ℕ) := mul_lt_mul_of_pos_right hlt (by decide)
  have habs := toNat_abs d
  rw [RtpTime.fromDuration, ← toNat_rate, fromDuration]
  split_ifs with hneg
  · have hd := neg_of_lt hneg
    have hc : clamp d.toInt < 0 := max_lt hd (by decide)
    rw [abs_of_neg hc] at habs hfits
    exact scale_of_neg hc habs (by decide) hfits
  · have hd := nonneg_of_not_lt hneg
    have hc : clamp d.toInt = d.toInt := max_eq_left (by omega)
    rw [hc] at hfits ⊢
    rw [abs_of_nonneg hd] at hfits
    exact scale_of_nonneg hd (toNat_toUInt64 hd) (by decide) hfits

/-- Where the duration fits, it is the result. -/
theorem toDuration_eq {tm : Int64} {hz : UInt32} (hpos : 0 < hz.toNat) (hne : -2 ^ 63 < tm.toInt)
    (hfits : |tm.toInt| * second < 2 ^ 63 * hz.toNat) :
    ∃ r, toDuration tm hz = some r ∧ r.toInt = RtpTime.toDuration tm.toInt hz.toNat := by
  rw [RtpTime.toDuration, ← toNat_rate, toDuration]
  rw [← toNat_rate] at hfits hpos
  split_ifs with hneg hmin
  · have hneg' := neg_of_lt hmin
    have := neg_of_lt hneg
    rw [toInt_neg_of_ne hne] at hneg'
    omega
  · have hd := neg_of_lt hneg
    rw [abs_of_neg hd] at hfits
    have hword := toNat_toUInt64 (nonneg_of_not_lt hmin)
    rw [toInt_neg_of_ne hne] at hword
    exact @scale_of_neg _ 1000000000 _ _ hd hword hpos hfits
  · have hd := nonneg_of_not_lt hneg
    rw [abs_of_nonneg hd] at hfits
    exact @scale_of_nonneg _ 1000000000 _ _ hd (toNat_toUInt64 hd) hpos hfits

/-- A difference loses its excess over a duration. -/
def sinceEpoch (tm : ℤ) : Int64 := Int64.ofInt (max (-2 ^ 63) (min tm (2 ^ 63 - 1)))

def ntpToTime (ntp : UInt64) : ℤ :=
  let sec := (ntp >>> 32).toUInt32
  let frac := (ntp &&& 0xFFFFFFFF).toUInt32
  (sec.toUInt64.toInt64 * 1000000000 + (frac.toUInt64.toInt64 * (1000000000 : Int64)) >>> (32 : Int64)).toInt

def timeToNTP (tm : ℤ) : UInt64 :=
  let d := sinceEpoch tm
  let sec := (d / 1000000000).toUInt64.toUInt32
  let frac := (d % 1000000000).toUInt64.toUInt32
  (sec.toUInt64 <<< 32) + (frac.toUInt64 <<< 32) / 1000000000

theorem toInt_toInt64 (n : UInt32) : n.toUInt64.toInt64.toInt = n.toNat := by
  have hlt := n.toNat_lt
  have hbits : n.toUInt64.toInt64.toInt = (n.toUInt64.toNat : ℤ).bmod (2 ^ 64) :=
    BitVec.toInt_eq_toNat_bmod _
  rw [hbits, UInt32.toNat_toUInt64]
  exact Int.bmod_eq_of_le (by omega) (by omega)

theorem toInt_seconds (n : UInt32) :
    (n.toUInt64.toInt64 * 1000000000).toInt = n.toNat * second := by
  have hlt := n.toNat_lt
  have hbillion : (1000000000 : Int64).toInt = 1000000000 := rfl
  rw [Int64.toInt_mul, toInt_toInt64, hbillion, second]
  exact Int.bmod_eq_of_le (by omega) (by omega)

theorem toInt_shiftRight (d : Int64) : (d >>> (32 : Int64)).toInt = d.toInt >>> (32 : ℕ) :=
  BitVec.toInt_sshiftRight

/-- The words are wide enough for every NTP time. -/
theorem ntpToTime_words (ntp : UInt64) : ntpToTime ntp = RtpTime.ntpToTime ntp := by
  have hsec := (ntp >>> 32).toUInt32.toNat_lt
  have hfrac := (ntp &&& 0xFFFFFFFF).toUInt32.toNat_lt
  rw [ntpToTime, Int64.toInt_add, toInt_shiftRight, toInt_seconds, toInt_seconds,
    RtpTime.ntpToTime]
  refine Int.bmod_eq_of_le ?_ ?_ <;> simp only [second, Int.shiftRight_eq_div_pow] <;> omega

theorem sinceEpoch_toInt {tm : ℤ} (h0 : 0 ≤ tm) (h : tm < 2 ^ 32 * second) :
    (sinceEpoch tm).toInt = tm := by
  rw [second] at h
  have hclip : max (-2 ^ 63) (min tm (2 ^ 63 - 1)) = tm := by omega
  rw [sinceEpoch, hclip]
  exact Int64.toInt_ofInt_of_le (by omega) (by omega)

theorem toUInt32_eq_ofInt {d : Int64} (h : 0 ≤ d.toInt) :
    d.toUInt64.toUInt32 = UInt32.ofInt d.toInt := by
  rw [← toNat_toUInt64 h]
  apply UInt32.toNat.inj
  rw [UInt64.toNat_toUInt32, UInt32.ofInt, UInt32.toNat_ofNat']
  omega

theorem timeToNTP_words {tm : ℤ} (h0 : 0 ≤ tm) (h : tm < 2 ^ 32 * second) :
    timeToNTP tm = RtpTime.timeToNTP tm := by
  have hd := sinceEpoch_toInt h0 h
  have hsec : (sinceEpoch tm / 1000000000).toInt = tm.tdiv second := by
    rw [Int64.toInt_div_of_ne_right _ _ (by decide), hd]
    rfl
  have hfrac : (sinceEpoch tm % 1000000000).toInt = tm.tmod second := by
    rw [Int64.toInt_mod, hd]
    rfl
  rw [timeToNTP, toUInt32_eq_ofInt (by rw [hsec]; exact Int.tdiv_nonneg h0 (by decide)),
    toUInt32_eq_ofInt (by rw [hfrac]; exact Int.tmod_nonneg _ h0), hsec, hfrac, RtpTime.timeToNTP]

/-- Division towards zero keeps the side of zero. -/
theorem tdiv_side (y : ℤ) {n : ℤ} (hn : 0 ≤ n) :
    (0 ≤ y → 0 ≤ y.tdiv n) ∧ (y ≤ 0 → y.tdiv n ≤ 0) := by
  refine ⟨fun hy => Int.tdiv_nonneg hy hn, fun hy => ?_⟩
  have hneg := Int.tdiv_nonneg (a := -y) (b := n) (by omega) hn
  rw [Int.neg_tdiv] at hneg
  omega

theorem abs_tdiv_mul_le (y : ℤ) (n : ℕ) : |y.tdiv n| * n ≤ |y| := by
  rw [Int.abs_eq_natAbs, Int.abs_eq_natAbs, Int.natAbs_tdiv, Int.natAbs_natCast]
  exact_mod_cast Nat.div_mul_le_self _ _

theorem fromDuration_side (c : ℤ) (hz : ℕ) :
    (0 ≤ c → 0 ≤ RtpTime.fromDuration c hz) ∧ (c ≤ 0 → RtpTime.fromDuration c hz ≤ 0) := by
  have hz' := Int.natCast_nonneg hz
  obtain ⟨hup, hdown⟩ := tdiv_side (c * hz) (n := second) (by decide)
  exact ⟨fun hc => hup (mul_nonneg hc hz'),
    fun hc => hdown (mul_nonpos_of_nonpos_of_nonneg hc hz')⟩

theorem toDuration_side (tm : ℤ) (hz : ℕ) :
    (0 ≤ tm → 0 ≤ RtpTime.toDuration tm hz) ∧ (tm ≤ 0 → RtpTime.toDuration tm hz ≤ 0) := by
  have hsec : 0 ≤ second := by decide
  obtain ⟨hup, hdown⟩ := tdiv_side (tm * second) (Int.natCast_nonneg hz)
  exact ⟨fun htm => hup (mul_nonneg htm hsec),
    fun htm => hdown (mul_nonpos_of_nonpos_of_nonneg htm hsec)⟩

theorem abs_fromDuration_le (c : ℤ) (hz : ℕ) :
    |RtpTime.fromDuration c hz| * second ≤ |c| * hz := by
  have h := abs_tdiv_mul_le (c * hz) 1000000000
  rwa [abs_mul, Nat.abs_cast] at h

theorem abs_toDuration_le (tm : ℤ) (hz : ℕ) :
    |RtpTime.toDuration tm hz| * hz ≤ |tm| * second := by
  have h := abs_tdiv_mul_le (tm * second) hz
  rwa [abs_mul, abs_of_nonneg (a := second) (by decide)] at h

/-- Less than one tick and one nanosecond are lost. -/
theorem abs_there_and_back (c : ℤ) {hz : ℕ} (hpos : 0 < hz) :
    |c - RtpTime.toDuration (RtpTime.fromDuration c hz) hz| * hz < second + hz := by
  have hto := abs_fromDuration c hz
  have hfrom := abs_toDuration (RtpTime.fromDuration c hz) hpos
  have hsum := abs_sub_le (c * hz) (RtpTime.fromDuration c hz * second)
    (RtpTime.toDuration (RtpTime.fromDuration c hz) hz * hz)
  rw [← sub_mul, abs_mul, Nat.abs_cast] at hsum
  omega

/-- The least duration is off by one nanosecond more, and nearer to zero. -/
theorem clamp_near (d : Int64) :
    (0 ≤ d.toInt → 0 ≤ clamp d.toInt) ∧ (d.toInt ≤ 0 → clamp d.toInt ≤ 0) ∧
      |clamp d.toInt| ≤ |d.toInt| ∧ |d.toInt - clamp d.toInt| ≤ 1 := by
  have hle := d.le_toInt
  have hself := le_abs_self d.toInt
  have hneg := neg_le_abs d.toInt
  rw [clamp, abs_le, abs_le]
  rcases le_total d.toInt (-(2 ^ 63 - 1)) with hmin | hmin
  · rw [max_eq_right hmin]
    omega
  · rw [max_eq_left hmin]
    omega

/-- Converted to units of `1 / hz` and back, a word of nanoseconds never overflows, keeps its side
of zero, does not grow, and loses less than a tick and two nanoseconds. -/
theorem exists_conversions (d : Int64) {hz : UInt32} (hpos : 0 < hz.toNat)
    (hmax : hz.toNat ≤ 1000000000) :
    ∃ q back, fromDuration d hz = some q ∧ toDuration q hz = some back ∧
      (0 ≤ d.toInt → 0 ≤ back.toInt) ∧ (d.toInt ≤ 0 → back.toInt ≤ 0) ∧
      |back.toInt| ≤ |d.toInt| ∧ |d.toInt - back.toInt| * hz.toNat < second + 2 * hz.toNat := by
  obtain ⟨q, hq, hqval⟩ := fromDuration_eq d hmax
  obtain ⟨hup, hdown, hsmall, hnear⟩ := clamp_near d
  have hz' : (0 : ℤ) < hz.toNat := Int.natCast_pos.2 hpos
  have hc := abs_clamp_lt d
  have hqle := abs_fromDuration_le (clamp d.toInt) hz.toNat
  have hqside := fromDuration_side (clamp d.toInt) hz.toNat
  have hloss := abs_there_and_back (clamp d.toInt) hpos
  rw [← hqval] at hqle hqside hloss
  have hfits : |q.toInt| * second < 2 ^ 63 * hz.toNat :=
    hqle.trans_lt (mul_lt_mul_of_pos_right hc hz')
  have hqabs : |q.toInt| ≤ |clamp d.toInt| := by
    have hrate : |clamp d.toInt| * hz.toNat ≤ |clamp d.toInt| * second :=
      mul_le_mul_of_nonneg_left (Int.ofNat_le.2 hmax) (abs_nonneg _)
    exact le_of_mul_le_mul_right (hqle.trans hrate) (by decide)
  obtain ⟨back, hback, hbackval⟩ :=
    toDuration_eq hpos (by have := neg_abs_le q.toInt; omega) hfits
  have hbackle := abs_toDuration_le q.toInt hz.toNat
  have hbackside := toDuration_side q.toInt hz.toNat
  rw [← hbackval] at hloss hbackle hbackside
  refine ⟨q, back, hq, hback, fun hd => hbackside.1 (hqside.1 (hup hd)),
    fun hd => hbackside.2 (hqside.2 (hdown hd)),
    (le_of_mul_le_mul_right (hbackle.trans hqle) hz').trans hsmall, ?_⟩
  have hsum := abs_sub_le d.toInt (clamp d.toInt) back.toInt
  calc |d.toInt - back.toInt| * hz.toNat
      ≤ (1 + |clamp d.toInt - back.toInt|) * hz.toNat :=
        mul_le_mul_of_nonneg_right (by omega) hz'.le
    _ = hz.toNat + |clamp d.toInt - back.toInt| * hz.toNat := by rw [add_mul, one_mul]
    _ < second + 2 * hz.toNat := by omega

theorem fromDuration_mono {d e q r : Int64} {hz : UInt32} (hmax : hz.toNat ≤ 1000000000)
    (hle : d ≤ e) (hq : fromDuration d hz = some q) (hr : fromDuration e hz = some r) : q ≤ r := by
  obtain ⟨q', hq', hqval⟩ := fromDuration_eq d hmax
  obtain ⟨r', hr', hrval⟩ := fromDuration_eq e hmax
  cases hq.symm.trans hq'
  cases hr.symm.trans hr'
  rw [Int64.le_iff_toInt_le] at hle ⊢
  rw [hqval, hrval]
  have hclamp : clamp d.toInt ≤ clamp e.toInt := max_le_max_right _ hle
  exact Int.tdiv_le_tdiv (by decide)
    (mul_le_mul_of_nonneg_right hclamp (Int.natCast_nonneg _))

/-- The nanoseconds of NTP time, from 1900 until it wraps around. -/
def InNtpEra (tm : ℤ) : Prop := 0 ≤ tm ∧ tm < 2 ^ 32 * second

instance (tm : ℤ) : Decidable (InNtpEra tm) := inferInstanceAs (Decidable (_ ∧ _))

theorem InNtpEra.parts {tm : ℤ} (h : InNtpEra tm) : ∃ sec ns : ℕ, sec < 2 ^ 32 ∧
    ns < 1000000000 ∧ tm = (sec * 1000000000 + ns : ℕ) := by
  obtain ⟨hlow, hhigh⟩ := h
  rw [second] at hhigh
  exact ⟨(tm / 1000000000).toNat, (tm % 1000000000).toNat, by omega, by omega, by omega⟩

theorem InNtpEra.toNat_timeToNTP {sec ns : ℕ} (hsec : sec < 2 ^ 32) (hns : ns < 1000000000) :
    (timeToNTP (sec * 1000000000 + ns : ℕ)).toNat = sec * 2 ^ 32 + ns * 2 ^ 32 / 1000000000 := by
  rw [timeToNTP_words (Int.natCast_nonneg _) (by rw [second]; omega)]
  exact timeToNTP_toNat hsec hns

theorem timeToNTP_mono {t t' : ℤ} (h : InNtpEra t) (h' : InNtpEra t') (hle : t ≤ t') :
    timeToNTP t ≤ timeToNTP t' := by
  obtain ⟨sec, ns, hsec, hns, rfl⟩ := h.parts
  obtain ⟨sec', ns', hsec', hns', rfl⟩ := h'.parts
  rw [UInt64.le_iff_toNat_le, InNtpEra.toNat_timeToNTP hsec hns,
    InNtpEra.toNat_timeToNTP hsec' hns']
  omega

theorem ntpToTime_timeToNTP_era {t : ℤ} (h : InNtpEra t) :
    ntpToTime (timeToNTP t) = t ∨ ntpToTime (timeToNTP t) = t - 1 := by
  obtain ⟨sec, ns, hsec, hns, rfl⟩ := h.parts
  obtain ⟨frac, hq⟩ : ∃ frac, frac = ns * 2 ^ 32 / 1000000000 := ⟨_, rfl⟩
  have hfrac : frac < 2 ^ 32 := by omega
  have hdiv : (sec * 2 ^ 32 + frac) / 2 ^ 32 = sec := by omega
  have hmod : (sec * 2 ^ 32 + frac) % 2 ^ 32 = frac := by omega
  rw [ntpToTime_words, ntpToTime_eq, InNtpEra.toNat_timeToNTP hsec hns, ← hq, hdiv, hmod]
  omega

/-- At every rate up to one tick for each nanosecond durations convert without overflow, in order,
and back with no more than the rounding lost; and so do the times of the NTP era. -/
theorem conversions_exact {hz : UInt32} (hpos : 0 < hz.toNat) (hmax : hz.toNat ≤ 1000000000) :
    (∀ d : Int64, ∃ q back, fromDuration d hz = some q ∧ toDuration q hz = some back ∧
      (0 ≤ d.toInt → 0 ≤ back.toInt) ∧ (d.toInt ≤ 0 → back.toInt ≤ 0) ∧
      |back.toInt| ≤ |d.toInt| ∧ |d.toInt - back.toInt| * hz.toNat < second + 2 * hz.toNat) ∧
    (∀ d e q r : Int64, d ≤ e → fromDuration d hz = some q → fromDuration e hz = some r → q ≤ r) ∧
    (∀ t t' : ℤ, InNtpEra t → InNtpEra t' → t ≤ t' → timeToNTP t ≤ timeToNTP t') ∧
    (∀ t : ℤ, InNtpEra t →
      ntpToTime (timeToNTP t) = t ∨ ntpToTime (timeToNTP t) = t - 1) :=
  ⟨fun d => exists_conversions d hpos hmax, fun _ _ _ _ => fromDuration_mono hmax,
    fun _ _ => timeToNTP_mono, fun _ => ntpToTime_timeToNTP_era⟩

theorem conversions_exact_at_90000 :
    (∃ q back, fromDuration Int64.minValue 90000 = some q ∧ toDuration q 90000 = some back ∧
      back.toInt ≤ 0) ∧
    ntpToTime (timeToNTP 1) = 0 ∧ timeToNTP 1 ≤ timeToNTP 2 := by
  have hpos : 0 < (90000 : UInt32).toNat := by decide
  have h := conversions_exact hpos (by decide)
  obtain ⟨q, back, hq, hback, -, hneg, -⟩ := h.1 Int64.minValue
  have hlost := (h.2.2.2 1 (by decide)).resolve_left (by decide)
  exact ⟨⟨q, back, hq, hback, hneg (by decide)⟩, hlost,
    h.2.2.1 1 2 (by decide) (by decide) (by decide)⟩

end Sozvon.TimeConversions
