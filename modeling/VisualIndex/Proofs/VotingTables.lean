import Mathlib.Data.List.Chain
import Mathlib.Data.List.Range
import VisualIndex.Proofs.Exponentials
import VisualIndex.Proofs.SharedTables
import VisualIndex.Proofs.SignatureBits
import VisualIndex.Settings.Basic

/-! The weights of valid settings.

Every step from a distance to its exponent rounds a monotone function, so under any
exponential that meets the laws the weights of a table fall with the distance from one down to
zero. The one exception is a width whose square is too small to be told from zero: the exponent
of distance zero is then zero divided by zero. -/
namespace VisualIndex

namespace Single

theorem neg_ofCode {c : Nat} (hc : c ≤ singleFormat.infinity) :
    -ofCode c = ofCode (singleFormat.pack true c) := by
  have bound : singleFormat.infinity < 2 ^ 31 := by decide
  have flipped := xor_add_mul (m := 31) (show c < 2 ^ 31 by omega) (Nat.two_pow_pos 31) 0 1
  simp only [Nat.mul_zero, Nat.add_zero, Nat.zero_add, Nat.xor_zero, Nat.zero_xor,
    Nat.mul_one] at flipped
  apply congrArg Single.mk
  apply UInt32.toNat_inj.mp
  rw [UInt32.toNat_xor, toNat_ofCode hc,
    UInt32.toNat_ofNat_of_lt' (singleFormat.pack_lt true hc)]
  exact flipped.trans (Nat.add_comm _ _)

theorem mul_ofCode (s t : Bool) {c d : Nat} (hc : c < singleFormat.infinity)
    (hd : d < singleFormat.infinity) :
    ofCode (singleFormat.pack s c) * ofCode (singleFormat.pack t d) =
      ofCode (singleFormat.pack (s != t) (singleFormat.round
        (singleFormat.quanta c * singleFormat.quanta d) (2 ^ singleFormat.unitShift))) := by
  change ofCode (singleFormat.mul _ _) = _
  rw [datum_ofCode s hc.le, datum_ofCode t hd.le, if_neg hc.ne, if_neg hd.ne]
  rfl

theorem div_ofCode (s t : Bool) {c d : Nat} (hc : c < singleFormat.infinity)
    (hd : d < singleFormat.infinity) (nonzero : singleFormat.quanta d ≠ 0) :
    ofCode (singleFormat.pack s c) / ofCode (singleFormat.pack t d) =
      ofCode (singleFormat.pack (s != t) (singleFormat.round
        (singleFormat.quanta c * 2 ^ singleFormat.unitShift) (singleFormat.quanta d))) := by
  change ofCode (singleFormat.div _ _) = _
  rw [datum_ofCode s hc.le, datum_ofCode t hd.le, if_neg hc.ne, if_neg hd.ne]
  simp only [Format.div, if_neg nonzero]

theorem div_infinity (s t : Bool) {c : Nat} (hc : c < singleFormat.infinity) :
    ofCode (singleFormat.pack s c) / ofCode (singleFormat.pack t singleFormat.infinity) =
      ofCode (singleFormat.pack (s != t) 0) := by
  change ofCode (singleFormat.div _ _) = _
  rw [datum_ofCode s hc.le, datum_ofCode t (Nat.le_refl _), if_neg hc.ne, if_pos rfl]
  rfl

theorem div_zero (s t : Bool) {c : Nat} (hc : c < singleFormat.infinity) :
    ofCode (singleFormat.pack s c) / ofCode (singleFormat.pack t 0) =
      ofCode (if singleFormat.quanta c = 0 then singleFormat.quietNaN
        else singleFormat.pack (s != t) singleFormat.infinity) := by
  change ofCode (singleFormat.div _ _) = _
  rw [datum_ofCode s hc.le, datum_ofCode t (by decide), if_neg hc.ne, if_neg (by decide)]
  simp only [Format.div, if_pos (show singleFormat.quanta 0 = 0 from rfl)]

end Single

namespace WeightTable
open Single

/-- The code of the square of the number of a code. -/
def squareCode (c : Nat) : Nat :=
  singleFormat.round (singleFormat.quanta c * singleFormat.quanta c) (2 ^ singleFormat.unitShift)

theorem squareCode_mono {c d : Nat} (order : c ≤ d) : squareCode c ≤ squareCode d := by
  have grown := singleFormat.quanta_strictMono.monotone order
  apply singleFormat.round_mono (by decide) (Nat.two_pow_pos _) (Nat.two_pow_pos _)
  exact Nat.mul_le_mul_right _ (Nat.mul_le_mul grown grown)

theorem squareCode_le_infinity (c : Nat) : squareCode c ≤ singleFormat.infinity :=
  singleFormat.round_le_infinity _ _

theorem square_ofCode {c : Nat} (hc : c < singleFormat.infinity) :
    ofCode c * ofCode c = ofCode (squareCode c) := by
  have product := mul_ofCode false false hc hc
  simpa only [squareCode, Format.pack_false, bne_self_eq_false] using product

/-- A square is lost exactly up to the width `2 ^ -75`. -/
theorem squareCode_eq_zero_iff (c : Nat) : squareCode c = 0 ↔ c ≤ 0x1a000000 := by
  have bound : singleFormat.quanta 0x1a000000 = 2 ^ 74 := by decide
  rw [← Nat.le_zero, squareCode,
    singleFormat.round_le_iff (by decide) (Nat.two_pow_pos _) (by decide),
    ← singleFormat.quanta_strictMono.le_iff_le, bound]
  have half : singleFormat.midpoint 0 * 2 ^ singleFormat.unitShift = 2 * (2 ^ 74 * 2 ^ 74) := by
    decide
  rw [half, and_iff_left (by decide), ← Nat.le_iff_lt_or_eq, Nat.mul_le_mul_left_iff (by decide)]
  exact Nat.mul_self_le_mul_self_iff

/-- The distances of a table are numbers whose squares stay in range. -/
theorem squareCode_ofNat_lt {d : Nat} (hd : d < 2 ^ 63) :
    singleFormat.ofNat d < singleFormat.infinity ∧
      squareCode (singleFormat.ofNat d) < singleFormat.infinity := by
  have greatest : singleFormat.ofNat (2 ^ 63) = 0x5f000000 := by decide
  have within := singleFormat.ofNat_mono (by decide) hd.le
  rw [greatest] at within
  have square : squareCode 0x5f000000 < singleFormat.infinity := by decide
  exact ⟨Nat.lt_of_le_of_lt within (by decide),
    Nat.lt_of_le_of_lt (squareCode_mono within) square⟩

theorem neg_mul_ofNat {d : Nat} (hd : d < 2 ^ 63) :
    -Single.ofNat d * Single.ofNat d =
      ofCode (singleFormat.pack true (squareCode (singleFormat.ofNat d))) := by
  have finite := (squareCode_ofNat_lt hd).1
  have product := mul_ofCode true false finite finite
  rw [Single.ofNat, neg_ofCode finite.le]
  simpa only [squareCode, Format.pack_false, Bool.bne_false] using product

/-- The exponent `-d² / sigma²` of a weight. -/
def exponent (sigma : Single) (distance : Nat) : Single :=
  -Single.ofNat distance * Single.ofNat distance / (sigma * sigma)

/-- The code of `d² / sigma²`. -/
def ratioCode (c d : Nat) : Nat :=
  if squareCode c = singleFormat.infinity then 0
  else singleFormat.round
    (singleFormat.quanta (squareCode (singleFormat.ofNat d)) * 2 ^ singleFormat.unitShift)
    (singleFormat.quanta (squareCode c))

section Proper
variable {c : Nat} (hc : c < singleFormat.infinity) (kept : 0 < squareCode c)
include kept

theorem quanta_squareCode_pos : 0 < singleFormat.quanta (squareCode c) :=
  singleFormat.quanta_strictMono kept

theorem ratioCode_mono {d e : Nat} (order : d ≤ e) : ratioCode c d ≤ ratioCode c e := by
  have grown := singleFormat.quanta_strictMono.monotone
    (squareCode_mono (singleFormat.ofNat_mono (by decide) order))
  unfold ratioCode
  split
  · exact Nat.le_refl _
  · apply singleFormat.round_mono (by decide) (quanta_squareCode_pos kept)
      (quanta_squareCode_pos kept)
    exact Nat.mul_le_mul_right _ (Nat.mul_le_mul_right _ grown)

omit kept in
theorem ratioCode_le_infinity (d : Nat) : ratioCode c d ≤ singleFormat.infinity := by
  unfold ratioCode
  split
  · exact Nat.zero_le _
  · exact singleFormat.round_le_infinity _ _

theorem ratioCode_zero : ratioCode c 0 = 0 := by
  have none : singleFormat.quanta (squareCode (singleFormat.ofNat 0)) = 0 := by decide
  unfold ratioCode
  split
  · rfl
  · rw [none, Nat.zero_mul, ← Nat.le_zero, singleFormat.round_le_iff (by decide)
      (quanta_squareCode_pos kept) (by decide)]
    left
    exact Nat.mul_pos (by decide) (quanta_squareCode_pos kept)

include hc in
theorem exponent_ofCode {d : Nat} (hd : d < 2 ^ 63) :
    exponent (ofCode c) d = ofCode (singleFormat.pack true (ratioCode c d)) := by
  rw [exponent, neg_mul_ofNat hd, square_ofCode hc, ratioCode]
  have finite := (squareCode_ofNat_lt hd).2
  by_cases infinite : squareCode c = singleFormat.infinity
  · have result := div_infinity true false finite
    simpa only [infinite, Format.pack_false, Bool.bne_false, if_true] using result
  · have bounded := Nat.lt_of_le_of_ne (squareCode_le_infinity c) infinite
    have result := div_ofCode true false finite bounded (quanta_squareCode_pos kept).ne'
    simpa only [if_neg infinite, Format.pack_false, Bool.bne_false] using result

include hc in
theorem exponent_falls {d : Nat} (hd : d + 1 < 2 ^ 63) :
    (exponent (ofCode c) d).ge (exponent (ofCode c) (d + 1)) = true := by
  have bound := ratioCode_le_infinity (c := c)
  rw [exponent_ofCode hc kept (Nat.lt_of_succ_lt hd), exponent_ofCode hc kept hd, ge_iff,
    rank_ofCode true (bound d), rank_ofCode true (bound (d + 1)), signed_true, signed_true]
  have grown : ratioCode c d ≤ ratioCode c (d + 1) := ratioCode_mono kept (Nat.le_succ d)
  exact ⟨isNaN_ofCode_pack true (bound d), isNaN_ofCode_pack true (bound (d + 1)), by omega⟩

include hc in
theorem exponent_zero : (exponent (ofCode c) 0).numEq .zero = true := by
  rw [exponent_ofCode hc kept (by decide), ratioCode_zero kept]
  decide

include hc in
theorem isNaN_exponent {d : Nat} (hd : d < 2 ^ 63) : (exponent (ofCode c) d).isNaN = false := by
  rw [exponent_ofCode hc kept hd]
  exact isNaN_ofCode_pack true (ratioCode_le_infinity d)

end Proper

/-- Without the square of the width, distance zero is divided by zero. -/
theorem exponent_of_square_zero {c : Nat} (hc : c < singleFormat.infinity)
    (lost : squareCode c = 0) :
    (exponent (ofCode c) 0).isNaN = true ∧ ∀ d, 0 < d → d < 2 ^ 63 →
      exponent (ofCode c) d = ofCode (singleFormat.pack true singleFormat.infinity) := by
  have quotient : ∀ d, d < 2 ^ 63 → exponent (ofCode c) d =
      ofCode (if singleFormat.quanta (squareCode (singleFormat.ofNat d)) = 0
        then singleFormat.quietNaN else singleFormat.pack true singleFormat.infinity) := by
    intro d hd
    have result := div_zero true false (squareCode_ofNat_lt hd).2
    simp only [Format.pack_false, Bool.bne_false] at result
    rw [exponent, neg_mul_ofNat hd, square_ofCode hc, lost, result]
  constructor
  · rw [quotient 0 (by decide), if_pos (by decide)]
    decide
  · intro d positive hd
    have one : 0 < squareCode (singleFormat.ofNat 1) := by decide
    have above := Nat.lt_of_lt_of_le one (squareCode_mono
      (singleFormat.ofNat_mono (by decide) positive))
    have nonzero : singleFormat.quanta (squareCode (singleFormat.ofNat d)) ≠ 0 :=
      (singleFormat.quanta_strictMono above).ne'
    rw [quotient d hd, if_neg nonzero]

theorem width_ofFn (bits : Nat) (f : Nat → Single) : (ofFn bits f).width = bits := by
  simp [width, ofFn]

theorem lookup_ofFn {bits d : Nat} (inside : d ≤ bits) (f : Nat → Single) :
    (ofFn bits f).lookup d = .ok (f d) := by
  have entry : (Array.range (bits + 1))[d]? = some d := by
    simp [Nat.lt_succ_of_le inside]
  rw [lookup, ofFn, Array.getElem?_map, entry]
  rfl

theorem descends_iff_isChain (weights : List Single) :
    descends weights = true ↔ weights.IsChain fun x y => x.ge y = true := by
  induction weights with
  | nil => exact ⟨fun _ => .nil, fun _ => rfl⟩
  | cons x rest ih =>
    cases rest with
    | nil => exact ⟨fun _ => .singleton x, fun _ => rfl⟩
    | cons y rest => rw [descends, Bool.and_eq_true, List.isChain_cons_cons, ih]

theorem isDescending_ofFn {bits : Nat} {f : Nat → Single}
    (falls : ∀ d < bits, (f d).ge (f (d + 1)) = true) : (ofFn bits f).isDescending = true := by
  rw [isDescending, descends_iff_isChain, ofFn, Array.toList_map, Array.toList_range,
    List.isChain_map, List.isChain_range]
  exact falls

/-- What is expected of voting weights: the first is one, from there they fall without a
NaN, and beyond the cut-off they are zero. -/
structure Proper (t : WeightTable) (cutoff : Nat) : Prop where
  numbers : ∀ weight ∈ t.weights, weight.isNaN = false
  one : t.lookup 0 = .ok ⟨0x3f800000⟩
  descends : t.isDescending = true
  zero_beyond : ∀ d ≤ t.width, cutoff < d → t.lookup d = .ok .zero

/-- The weights by an exponential, zero beyond the cut-off. -/
def weightBy (exp : Single → Single) (sigma : Single) (cutoff d : Nat) : Single :=
  if d ≤ cutoff then exp (exponent sigma d) else .zero

theorem gaussian_eq (bits : Nat) (sigma : Single) (cutoff : Nat) :
    gaussian bits sigma cutoff = ofFn bits (weightBy exp sigma cutoff) := rfl

theorem weightBy_zero_beyond {exp : Single → Single} {sigma : Single} {bits cutoff d : Nat}
    (inside : d ≤ bits) (beyond : cutoff < d) :
    (ofFn bits (weightBy exp sigma cutoff)).lookup d = .ok .zero := by
  rw [lookup_ofFn inside, weightBy, if_neg (Nat.not_le.mpr beyond)]

section Gaussian
variable {exp : Single → Single} (lawful : IsExponential exp) {c bits : Nat}
variable (hc : c < singleFormat.infinity) (fits : bits < 2 ^ 63) (cutoff : Nat)
include lawful hc fits

theorem weightBy_proper (kept : 0 < squareCode c) :
    (ofFn bits (weightBy exp (ofCode c) cutoff)).Proper cutoff := by
  constructor
  · intro weight there
    rw [ofFn, Array.mem_map] at there
    obtain ⟨d, inside, rfl⟩ := there
    have short := Nat.le_of_lt_succ (Array.mem_range.mp inside)
    unfold weightBy
    split
    · exact lawful.number _ (isNaN_exponent hc kept (by omega))
    · rfl
  · rw [lookup_ofFn (Nat.zero_le bits), weightBy, if_pos (Nat.zero_le cutoff),
      lawful.one _ (exponent_zero hc kept)]
  · apply isDescending_ofFn
    intro d inside
    -- a step inside the cut-off, one across it and one beyond it
    unfold weightBy
    split
    · split
      · exact lawful.mono _ _ (exponent_falls hc kept (by omega))
      · exact lawful.nonnegative _ (isNaN_exponent hc kept (by omega))
    · rw [if_neg (by omega)]
      rfl
  · intro d inside beyond
    rw [width_ofFn] at inside
    exact weightBy_zero_beyond inside beyond

theorem weightBy_of_square_zero (lost : squareCode c = 0) :
    (∃ weight, (ofFn bits (weightBy exp (ofCode c) cutoff)).lookup 0 = .ok weight ∧
      weight.isNaN = true) ∧
    ∀ d ≤ bits, 0 < d → (ofFn bits (weightBy exp (ofCode c) cutoff)).lookup d = .ok .zero := by
  obtain ⟨first, others⟩ := exponent_of_square_zero hc lost
  constructor
  · refine ⟨_, lookup_ofFn (Nat.zero_le bits) _, ?_⟩
    rw [weightBy, if_pos (Nat.zero_le cutoff)]
    exact lawful.missing _ first
  · intro d inside positive
    rw [lookup_ofFn inside, weightBy, others d positive (by omega), lawful.bottom, ite_self]

/-- Which exponential it is does not matter: a table is proper exactly if the width has a
square. -/
theorem weightBy_proper_iff :
    (ofFn bits (weightBy exp (ofCode c) cutoff)).Proper cutoff ↔ squareCode c ≠ 0 := by
  constructor
  · intro proper lost
    obtain ⟨⟨weight, first, nan⟩, -⟩ := weightBy_of_square_zero lawful hc fits cutoff lost
    rw [proper.one] at first
    cases first
    exact absurd nan (by decide)
  · intro kept
    exact weightBy_proper lawful hc fits cutoff (Nat.pos_of_ne_zero kept)

end Gaussian

end WeightTable

namespace Settings
open WeightTable

/-- Settings are valid exactly if the width is a positive finite number. -/
theorem check_eq_ok_iff (s : Settings) : s.check = .ok () ↔
    ∃ c, 0 < c ∧ c < singleFormat.infinity ∧ s.sigma = .ofCode c := by
  have passes : s.check = .ok () ↔ (s.sigma.isFinite && s.sigma.gt .zero) = true := by
    unfold check
    split <;> simp_all
  rw [passes]
  constructor
  · intro accepted
    obtain ⟨finite, above⟩ := (Bool.and_eq_true _ _).mp accepted
    simp only [Single.isFinite, decide_eq_true_eq] at finite
    simp only [Single.gt, Bool.and_eq_true, decide_eq_true_eq] at above
    have positive : 0 < s.sigma.key := above.2
    simp only [Single.key, Single.isNegative, decide_eq_true_eq] at positive
    split at positive
    · omega
    · next small =>
      have code : s.sigma.magnitude = s.sigma.bits.toNat := Nat.mod_eq_of_lt (by omega)
      refine ⟨s.sigma.bits.toNat, by omega, by omega, ?_⟩
      rw [Single.ofCode, UInt32.ofNat_toNat]
  · rintro ⟨c, positive, finite, code⟩
    have zero : Single.zero.isNaN = false ∧ Single.zero.key = 0 := by decide
    simp only [code, Single.isFinite, Single.gt, Single.magnitude_ofCode finite.le,
      Single.isNaN_ofCode finite.le, Single.key_ofCode finite.le, zero, finite]
    simpa using positive

/-- A table of valid settings is proper unless the square of the width is too small to be
told from zero. Then the weight of distance zero is a NaN, and all others are zero. -/
theorem sharedTable_proper_iff {s : Settings} (valid : s.check = .ok ()) {bits : Nat}
    (fits : bits < 2 ^ 63) {ι : Type} [DecidableEq ι] (key : ι → WeightKey)
    (schedule : List ι) :
    ∃ shared cache, s.sharedTable bits (Callers.run key schedule).cache = .ok (shared, cache) ∧
      shared.table.width = bits ∧
      (∀ d ≤ bits, s.effectiveCutoff.toNat < d → shared.table.lookup d = .ok .zero) ∧
      (shared.table.Proper s.effectiveCutoff.toNat ↔ s.sigma * s.sigma ≠ .zero) ∧
      (s.sigma * s.sigma = .zero ↔ s.sigma.bits ≤ 0x1a000000) ∧
      (s.sigma * s.sigma = .zero →
        (∃ weight, shared.table.lookup 0 = .ok weight ∧ weight.isNaN = true) ∧
        ∀ d ≤ bits, 0 < d → shared.table.lookup d = .ok .zero) := by
  obtain ⟨c, positive, hc, sigma⟩ := (s.check_eq_ok_iff).mp valid
  have answered := ((Callers.run_invariant key schedule).coherent.request (s.tableKey bits)).1
  have square : s.sigma * s.sigma = .zero ↔ squareCode c = 0 := by
    rw [sigma, square_ofCode hc]
    constructor
    · intro zero
      have same := congrArg (fun x => x.bits.toNat) zero
      rw [Single.toNat_ofCode (squareCode_le_infinity c)] at same
      exact same
    · intro zero
      rw [zero]
      rfl
  refine ⟨_, _, by rw [sharedTable, valid], ?_⟩
  rw [answered]
  dsimp only [tableKey, WeightKey.table]
  rw [sigma] at square ⊢
  rw [gaussian_eq]
  refine ⟨width_ofFn _ _, fun d inside beyond => weightBy_zero_beyond inside beyond, ?_, ?_, ?_⟩
  · rw [Ne, square]
    exact weightBy_proper_iff Single.exp_isExponential hc fits _
  · rw [square, squareCode_eq_zero_iff, UInt32.le_iff_toNat_le, Single.toNat_ofCode hc.le]
    rfl
  · rw [square]
    exact weightBy_of_square_zero Single.exp_isExponential hc fits _

theorem sharedTable_proper_iff_default : default.check = .ok () ∧ 256 < 2 ^ 63 ∧
    ∃ shared cache, default.sharedTable 256 (Callers.run Callers.threeKeys Callers.crossed).cache =
      .ok (shared, cache) ∧ shared.table.width = 256 ∧ shared.table.Proper 24 := by
  have valid : default.check = .ok () := by decide +kernel
  obtain ⟨shared, cache, found, width, -, proper, -⟩ :=
    sharedTable_proper_iff valid (show 256 < 2 ^ 63 by decide) Callers.threeKeys Callers.crossed
  exact ⟨valid, by decide, shared, cache, found, width, proper.mpr (by decide +kernel)⟩

/-- The least positive width. -/
def narrowest : Settings := ⟨⟨1⟩, none⟩

theorem sharedTable_narrowest : narrowest.check = .ok () ∧
    ∃ shared cache, narrowest.sharedTable 8 .empty = .ok (shared, cache) ∧
      (∃ weight, shared.table.lookup 0 = .ok weight ∧ weight.isNaN = true) ∧
      ¬ shared.table.Proper narrowest.effectiveCutoff.toNat := by
  have valid : narrowest.check = .ok () := by decide +kernel
  have first : (narrowest.tableKey 8).table.lookup 0 = .ok (.ofCode singleFormat.quietNaN) := by
    decide +kernel
  refine ⟨valid, _, _, by rw [sharedTable, valid], ⟨_, first, by decide⟩, ?_⟩
  intro proper
  have one : (narrowest.tableKey 8).table.lookup 0 = .ok ⟨0x3f800000⟩ := proper.one
  rw [first] at one
  exact absurd one (by decide)

end Settings

end VisualIndex
