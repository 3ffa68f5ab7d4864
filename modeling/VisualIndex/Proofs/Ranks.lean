import VisualIndex.Proofs.Rounding

/-! Ranks.

The rank orders all values, with NaN on top. Values of one rank are the same but for the sign
of a zero and the payload of a NaN, and a value lies above another exactly if it is a number of
higher rank. -/
namespace VisualIndex

/-- A magnitude with a sign. -/
def signed (negative : Bool) (n : Nat) : Int := if negative then -n else n

@[simp] theorem signed_false (n : Nat) : signed false n = n :=
  if_neg Bool.false_ne_true

@[simp] theorem signed_true (n : Nat) : signed true n = -n := if_pos rfl

namespace Format

variable (f : Format)

/-- A quiet NaN is the encoding of a code beyond infinity's. -/
theorem quiet_eq_pack (fraction : 0 < f.fractionBits) (negative : Bool) (payload : Nat) :
    ∃ c, f.infinity < c ∧ c < f.signWeight ∧ f.quiet negative payload = f.pack negative c := by
  have half : 2 ^ f.fractionBits = 2 * 2 ^ (f.fractionBits - 1) := by
    rw [← Nat.pow_succ', Nat.succ_eq_add_one, Nat.sub_add_cancel fraction]
  have weight : f.signWeight = f.infinity + 2 * 2 ^ (f.fractionBits - 1) := by
    rw [signWeight, infinity, ← half, Nat.add_comm f.fractionBits, Nat.pow_add,
      ← Nat.succ_mul, Nat.succ_eq_add_one, Nat.sub_add_cancel (Nat.two_pow_pos _)]
  have low := Nat.mod_lt payload (Nat.two_pow_pos (f.fractionBits - 1))
  have first := Nat.two_pow_pos (f.fractionBits - 1)
  exact ⟨f.infinity + 2 ^ (f.fractionBits - 1) + payload % 2 ^ (f.fractionBits - 1),
    by omega, by omega, rfl⟩

/-- A quiet NaN decodes to a NaN. -/
theorem decode_quiet (fraction : 0 < f.fractionBits) (negative : Bool) (payload : Nat) :
    ∃ p, f.decode (f.quiet negative payload) = .nan negative p := by
  obtain ⟨c, beyond, inside, encoded⟩ := f.quiet_eq_pack fraction negative payload
  obtain ⟨code, sign⟩ := f.pack_parts negative inside
  exact ⟨c - f.infinity, by simp only [encoded, decode, code, sign, if_pos beyond]⟩

theorem quiet_lt (fraction : 0 < f.fractionBits) (negative : Bool) (payload : Nat) :
    f.quiet negative payload < 2 * f.signWeight := by
  obtain ⟨c, -, inside, encoded⟩ := f.quiet_eq_pack fraction negative payload
  exact encoded ▸ f.pack_lt_of_inside negative inside

end Format

namespace Single

/-- The same value, all NaN counted as one. -/
def Alike (x y : Single) : Prop := x = y ∨ x.isNaN ∧ y.isNaN

theorem Alike.symm {x y : Single} (alike : x.Alike y) : y.Alike x :=
  alike.imp Eq.symm And.symm

theorem Alike.trans {x y z : Single} (first : x.Alike y) (second : y.Alike z) : x.Alike z := by
  rcases first with rfl | ⟨hx, hy⟩
  · exact second
  · rcases second with rfl | ⟨-, hz⟩
    · exact .inr ⟨hx, hy⟩
    · exact .inr ⟨hx, hz⟩

theorem datum_eq (x : Single) : x.datum =
    if singleFormat.infinity < x.magnitude then
      .nan x.isNegative (x.magnitude - singleFormat.infinity)
    else if x.magnitude = singleFormat.infinity then .infinite x.isNegative
    else .finite x.isNegative (singleFormat.quanta x.magnitude) := by
  have weight : singleFormat.signWeight = 2 ^ 31 := by decide
  have bound := x.bits.toNat_lt
  have sign : decide (x.bits.toNat / 2 ^ 31 % 2 = 1) = x.isNegative := by
    rw [isNegative, decide_eq_decide]
    omega
  rw [datum, Format.decode]
  simp only [weight, sign]
  rfl

theorem isNaN_iff (x : Single) : x.isNaN ↔ ∃ s p, x.datum = .nan s p := by
  rw [isNaN, decide_eq_true_iff, datum_eq]
  constructor
  · intro beyond
    exact ⟨_, _, if_pos beyond⟩
  · rintro ⟨s, p, decoded⟩
    by_contra number
    rw [if_neg number] at decoded
    split at decoded <;> cases decoded

theorem isNaN_ofCode_quiet (s : Bool) (p : Nat) : (ofCode (singleFormat.quiet s p)).isNaN := by
  rw [isNaN_iff, datum, ofCode, UInt32.toNat_ofNat_of_lt' (singleFormat.quiet_lt (by decide) s p)]
  obtain ⟨q, decoded⟩ := singleFormat.decode_quiet (by decide) s p
  exact ⟨s, q, decoded⟩

theorem bits_eq_pack (x : Single) :
    x.bits.toNat = singleFormat.pack x.isNegative x.magnitude := by
  have weight : singleFormat.signWeight = 2 ^ 31 := by decide
  have bound := x.bits.toNat_lt
  rw [Format.pack, isNegative, magnitude, weight]
  by_cases negative : 2 ^ 31 ≤ x.bits.toNat
  · rw [decide_eq_true negative, if_pos rfl]
    omega
  · rw [decide_eq_false negative, if_neg Bool.false_ne_true]
    omega

theorem eq_of_parts {x y : Single} (sign : x.isNegative = y.isNegative)
    (code : x.magnitude = y.magnitude) : x = y := by
  have bits : x.bits.toNat = y.bits.toNat := by
    rw [bits_eq_pack, bits_eq_pack, sign, code]
  exact congrArg mk (UInt32.toNat_inj.mp bits)

theorem magnitude_le {x : Single} (number : x.isNaN = false) :
    x.magnitude ≤ singleFormat.infinity :=
  Nat.not_lt.mp (of_decide_eq_false number)

theorem rank_of_isNaN {x : Single} (missing : x.isNaN) : x.rank = singleFormat.infinity + 1 :=
  if_pos missing

theorem rank_of_number {x : Single} (number : x.isNaN = false) : x.rank = x.key :=
  if_neg (by rw [number]; exact Bool.false_ne_true)

theorem key_bounds {x : Single} (number : x.isNaN = false) :
    -(singleFormat.infinity : Int) ≤ x.key ∧ x.key ≤ singleFormat.infinity := by
  have bound := magnitude_le number
  rw [key]
  split <;> omega

theorem rank_bounds (x : Single) :
    -(singleFormat.infinity : Int) ≤ x.rank ∧ x.rank ≤ singleFormat.infinity + 1 := by
  cases number : x.isNaN with
  | true =>
    rw [rank_of_isNaN number]
    omega
  | false =>
    have bounds := key_bounds number
    rw [rank_of_number number]
    omega

theorem Alike.rank_eq {x y : Single} (alike : x.Alike y) : x.rank = y.rank := by
  rcases alike with rfl | ⟨hx, hy⟩
  · rfl
  · rw [rank_of_isNaN hx, rank_of_isNaN hy]

theorem isNaN_iff_rank (x : Single) : x.isNaN ↔ x.rank = singleFormat.infinity + 1 := by
  refine ⟨rank_of_isNaN, fun top => ?_⟩
  by_contra number
  rw [Bool.not_eq_true] at number
  have bounds := key_bounds number
  rw [rank_of_number number] at top
  omega

/-- Values of one rank are alike, unless they are the two zeros. -/
theorem eq_of_rank_eq {x y : Single} (same : x.rank = y.rank) :
    x.Alike y ∨ x = zero ∧ y = -zero ∨ x = -zero ∧ y = zero := by
  have together : x.isNaN ↔ y.isNaN := by rw [isNaN_iff_rank, isNaN_iff_rank, same]
  cases number : y.isNaN with
  | true => exact .inl (.inr ⟨together.mpr number, number⟩)
  | false =>
    have number' : x.isNaN = false := by
      rwa [number, Bool.false_eq_true, iff_false, Bool.not_eq_true] at together
    rw [rank_of_number number, rank_of_number number', key, key] at same
    -- of one sign the codes agree, and of two signs both codes are 0
    cases sign : x.isNegative <;> cases sign' : y.isNegative <;>
      simp only [sign, sign', if_true, Bool.false_eq_true, if_false] at same
    · exact .inl (.inl (eq_of_parts (by rw [sign, sign']) (by omega)))
    · refine .inr (.inl ⟨eq_of_parts sign ?_, eq_of_parts sign' ?_⟩)
      · exact (show x.magnitude = 0 by omega)
      · exact (show y.magnitude = 0 by omega)
    · refine .inr (.inr ⟨eq_of_parts sign ?_, eq_of_parts sign' ?_⟩)
      · exact (show x.magnitude = 0 by omega)
      · exact (show y.magnitude = 0 by omega)
    · exact .inl (.inl (eq_of_parts (by rw [sign, sign']) (by omega)))

/-- A value lies above another exactly if it is a number of higher rank. -/
theorem gt_iff (x y : Single) : x.gt y ↔ x.isNaN = false ∧ y.rank < x.rank := by
  cases first : x.isNaN with
  | true => simp [gt, first]
  | false =>
    have bounds := key_bounds first
    cases second : y.isNaN with
    | true => simp [gt, first, second, rank_of_isNaN second, rank_of_number first]; omega
    | false => simp [gt, first, second, rank_of_number first, rank_of_number second]

/-- A number reaches another exactly if its rank is no lower. -/
theorem ge_iff (x y : Single) :
    x.ge y ↔ x.isNaN = false ∧ y.isNaN = false ∧ y.rank ≤ x.rank := by
  cases first : x.isNaN with
  | true => simp [ge, first]
  | false =>
    cases second : y.isNaN with
    | true => simp [ge, second]
    | false => simp [ge, first, second, rank_of_number first, rank_of_number second]

/-- A number is encoded by a sign and a magnitude code. -/
theorem exists_ofCode {x : Single} (number : x.isNaN = false) :
    ∃ s, ∃ c ≤ singleFormat.infinity, x = ofCode (singleFormat.pack s c) := by
  refine ⟨x.isNegative, x.magnitude, magnitude_le number, ?_⟩
  rw [← bits_eq_pack, ofCode, UInt32.ofNat_toNat]

section Codes
variable (negative : Bool) {c : Nat} (bounded : c ≤ singleFormat.infinity)
include bounded

theorem toNat_ofCode_pack :
    (ofCode (singleFormat.pack negative c)).bits.toNat = singleFormat.pack negative c :=
  UInt32.toNat_ofNat_of_lt' (singleFormat.pack_lt negative bounded)

theorem magnitude_ofCode_pack : (ofCode (singleFormat.pack negative c)).magnitude = c := by
  have inside : c < 2 ^ 31 := Nat.lt_of_le_of_lt bounded (by decide)
  have weight : singleFormat.signWeight = 2 ^ 31 := by decide
  rw [magnitude, toNat_ofCode_pack negative bounded, ← weight]
  exact (singleFormat.pack_parts negative (by rwa [weight])).1

theorem isNegative_ofCode_pack :
    (ofCode (singleFormat.pack negative c)).isNegative = negative := by
  have inside : c < 2 ^ 31 := Nat.lt_of_le_of_lt bounded (by decide)
  have weight : singleFormat.signWeight = 2 ^ 31 := by decide
  rw [isNegative, toNat_ofCode_pack negative bounded, Format.pack, weight]
  cases negative <;> simp [inside]

theorem isNaN_ofCode_pack : (ofCode (singleFormat.pack negative c)).isNaN = false := by
  rw [isNaN, magnitude_ofCode_pack negative bounded]
  exact decide_eq_false (Nat.not_lt.mpr bounded)

theorem rank_ofCode : (ofCode (singleFormat.pack negative c)).rank = signed negative c := by
  rw [rank_of_number (isNaN_ofCode_pack negative bounded), key,
    isNegative_ofCode_pack negative bounded, magnitude_ofCode_pack negative bounded]
  rfl

end Codes

end Single

end VisualIndex
