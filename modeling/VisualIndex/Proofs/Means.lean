import VisualIndex.Proofs.Ranks

/-! The mean of two numbers.

A NaN among two numbers makes their mean one. Of numbers the mean is formed by three roundings,
each of which is monotone and leaves alone what the mean of a number with itself comes to. So
the mean lies no lower than the lesser number, and as NaN ranks above the numbers, it never
ranks below it. -/
namespace VisualIndex

namespace Format

variable (f : Format)

/-- A finite value has few significant bits. -/
theorem quanta_parts (wide : 2 < 2 ^ f.exponentBits) {c : Nat} (finite : c < f.infinity) :
    ∃ m < 2 ^ (f.fractionBits + 1), ∃ k, k + 2 < 2 ^ f.exponentBits ∧
      f.quanta c = m * 2 ^ k := by
  have fraction := Nat.mod_lt c (Nat.two_pow_pos f.fractionBits)
  have exponent : c / 2 ^ f.fractionBits < 2 ^ f.exponentBits - 1 :=
    Nat.div_lt_of_lt_mul (by rwa [Nat.mul_comm])
  rcases Nat.eq_zero_or_pos (c / 2 ^ f.fractionBits) with subnormal | normal
  · exact ⟨c % 2 ^ f.fractionBits, by rw [Nat.pow_succ]; omega, 0, wide,
      by simp [quanta, subnormal]⟩
  · exact ⟨2 ^ f.fractionBits + c % 2 ^ f.fractionBits, by rw [Nat.pow_succ]; omega,
      c / 2 ^ f.fractionBits - 1, by omega, by simp [quanta, normal.ne']⟩

/-- A sum of finite numbers is rounded once. -/
theorem add_of_finite (s t : Bool) (a b : Nat) : ∃ u, ∃ n ≤ a + b,
    signed u n = signed s a + signed t b ∧
      f.add (.finite s a) (.finite t b) = f.pack u (f.round n 1) := by
  by_cases same : s = t
  · subst same
    refine ⟨s, a + b, Nat.le_refl _, ?_, if_pos rfl⟩
    cases s <;> simp only [signed_false, signed_true] <;> omega
  · have opposite : t = !s := Bool.eq_not_of_ne (Ne.symm same)
    subst opposite
    rw [add, if_neg same]
    -- the difference takes the sign of the greater; of two equal numbers it is the positive zero
    rcases Nat.lt_trichotomy a b with less | rfl | greater
    · refine ⟨!s, b - a, by omega, ?_, ?_⟩
      · cases s <;> simp only [Bool.not_false, Bool.not_true, signed_false, signed_true] <;> omega
      · rw [if_neg less.ne, if_neg less.not_gt]
    · refine ⟨false, 0, by omega, ?_, ?_⟩
      · cases s <;> simp [signed]
      · rw [if_pos rfl]
        simp [round, nearestEven]
    · refine ⟨s, a - b, by omega, ?_, ?_⟩
      · cases s <;> simp only [Bool.not_false, Bool.not_true, signed_false, signed_true] <;> omega
      · rw [if_neg greater.ne', if_pos greater]

end Format

namespace Double

theorem isNaN_iff (x : Double) : x.isNaN ↔ ∃ s p, x.datum = .nan s p := by
  rw [isNaN]
  cases x.datum with
  | nan s p => exact ⟨fun _ => ⟨s, p, rfl⟩, fun _ => rfl⟩
  | infinite s => simp
  | finite s q => simp

theorem isNaN_ofCode_quiet (s : Bool) (p : Nat) : (ofCode (doubleFormat.quiet s p)).isNaN := by
  rw [isNaN_iff, datum, ofCode, UInt64.toNat_ofNat_of_lt' (doubleFormat.quiet_lt (by decide) s p)]
  obtain ⟨q, decoded⟩ := doubleFormat.decode_quiet (by decide) s p
  exact ⟨s, q, decoded⟩

theorem isNaN_add {x y : Double} (missing : x.isNaN ∨ y.isNaN) : (x + y).isNaN := by
  change (ofCode (doubleFormat.add x.datum y.datum)).isNaN
  rcases missing with first | second
  · obtain ⟨s, p, decoded⟩ := (isNaN_iff x).mp first
    rw [decoded]
    exact isNaN_ofCode_quiet s p
  · obtain ⟨s, p, decoded⟩ := (isNaN_iff y).mp second
    rw [decoded]
    cases x.datum <;> exact isNaN_ofCode_quiet _ _

theorem isNaN_div {x : Double} (missing : x.isNaN) (y : Double) : (x / y).isNaN := by
  obtain ⟨s, p, decoded⟩ := (isNaN_iff x).mp missing
  change (ofCode (doubleFormat.div x.datum y.datum)).isNaN
  rw [decoded]
  exact isNaN_ofCode_quiet s p

theorem isNaN_narrow {x : Double} (missing : x.isNaN) : x.narrow.isNaN := by
  obtain ⟨s, p, decoded⟩ := (isNaN_iff x).mp missing
  rw [narrow, decoded]
  exact Single.isNaN_ofCode_quiet _ _

end Double

theorem Single.isNaN_widen {x : Single} (missing : x.isNaN) : x.widen.isNaN := by
  obtain ⟨s, p, decoded⟩ := (isNaN_iff x).mp missing
  rw [widen, decoded]
  exact Double.isNaN_ofCode_quiet _ _

namespace Single

/-- The mean of two numbers, taken in double precision. -/
def mean (x y : Single) : Single := ((x.widen + y.widen) / Double.ofNat 2).narrow

theorem isNaN_mean {x y : Single} (missing : x.isNaN ∨ y.isNaN) : (x.mean y).isNaN :=
  Double.isNaN_narrow (Double.isNaN_div (Double.isNaN_add (missing.imp isNaN_widen isNaN_widen)) _)

theorem Alike.mean {x y x' y' : Single} (first : x.Alike x') (second : y.Alike y') :
    (x.mean y).Alike (x'.mean y') := by
  rcases first with rfl | ⟨missing, missing'⟩
  · rcases second with rfl | ⟨missing, missing'⟩
    · exact .inl rfl
    · exact .inr ⟨isNaN_mean (.inr missing), isNaN_mean (.inr missing')⟩
  · exact .inr ⟨isNaN_mean (.inl missing), isNaN_mean (.inl missing')⟩

/-- The quanta of a double that make up a quantum of a single. -/
def finer : Nat := 2 ^ (doubleFormat.unitShift - singleFormat.unitShift)

theorem finer_unit : finer * 2 ^ singleFormat.unitShift = 2 ^ doubleFormat.unitShift := by
  rw [finer, ← Nat.pow_add]
  exact congrArg (2 ^ ·) (by decide)

theorem exists_double {c : Nat} (finite : c < singleFormat.infinity) {n : Nat} (few : n < 2) :
    ∃ w < doubleFormat.infinity,
      doubleFormat.quanta w = 2 ^ n * (singleFormat.quanta c * finer) := by
  obtain ⟨m, digits, k, range, value⟩ := singleFormat.quanta_parts (by decide) finite
  obtain ⟨w, inside, wide⟩ := doubleFormat.exists_code (m := m)
    (k := k + (doubleFormat.unitShift - singleFormat.unitShift) + n)
    (digits.trans (by decide)) (by
      have shift : doubleFormat.unitShift - singleFormat.unitShift = 925 := by decide
      have single : 2 ^ singleFormat.exponentBits = 256 := by decide
      have double : 2 ^ doubleFormat.exponentBits = 2048 := by decide
      omega)
  refine ⟨w, inside, ?_⟩
  rw [wide, value, Nat.pow_add, Nat.pow_add, ← finer]
  ring

/-- The magnitude code of half a sum, the sum being given in quanta of doubles. -/
def halved (sum : Nat) : Nat :=
  let rounded := doubleFormat.quanta (doubleFormat.round sum 1)
  let half := doubleFormat.quanta
    (doubleFormat.round (rounded * 2 ^ doubleFormat.unitShift) (2 * 2 ^ doubleFormat.unitShift))
  singleFormat.round (half * 2 ^ singleFormat.unitShift) (2 ^ doubleFormat.unitShift)

theorem halved_mono {m n : Nat} (order : m ≤ n) : halved m ≤ halved n := by
  have unit := Nat.two_pow_pos doubleFormat.unitShift
  have sum := doubleFormat.quanta_strictMono.monotone <|
    doubleFormat.round_mono (by decide) Nat.one_pos Nat.one_pos (Nat.mul_le_mul_right 1 order)
  have half := doubleFormat.quanta_strictMono.monotone <|
    doubleFormat.round_mono (by decide) (Nat.mul_pos Nat.two_pos unit)
      (Nat.mul_pos Nat.two_pos unit)
      (Nat.mul_le_mul_right _ (Nat.mul_le_mul_right (2 ^ doubleFormat.unitShift) sum))
  exact singleFormat.round_mono (by decide) unit unit
    (Nat.mul_le_mul_right _ (Nat.mul_le_mul_right _ half))

/-- Half of twice a number is the number: none of the roundings changes it. -/
theorem halved_double {c : Nat} (finite : c < singleFormat.infinity) :
    halved (2 * (singleFormat.quanta c * finer)) = c := by
  obtain ⟨twice, inside_twice, value_twice⟩ := exists_double finite (n := 1) (by decide)
  obtain ⟨once, inside_once, value_once⟩ := exists_double finite (n := 0) (by decide)
  rw [Nat.pow_one] at value_twice
  rw [Nat.pow_zero, Nat.one_mul] at value_once
  have unit := Nat.two_pow_pos doubleFormat.unitShift
  have sum : doubleFormat.round (2 * (singleFormat.quanta c * finer)) 1 = twice := by
    rw [← value_twice, ← Nat.mul_one (doubleFormat.quanta twice)]
    exact doubleFormat.round_quanta (by decide) Nat.one_pos inside_twice
  have half : doubleFormat.round (doubleFormat.quanta twice * 2 ^ doubleFormat.unitShift)
      (2 * 2 ^ doubleFormat.unitShift) = once := by
    rw [value_twice, ← value_once, Nat.mul_comm 2 (doubleFormat.quanta once), Nat.mul_assoc]
    exact doubleFormat.round_quanta (by decide) (Nat.mul_pos Nat.two_pos unit) inside_once
  simp only [halved, sum, half]
  rw [value_once, Nat.mul_assoc, finer_unit]
  exact singleFormat.round_quanta (by decide) unit finite

/-- Half of a sum with a sign. -/
def signedHalved (sum : Int) : Int := signed (decide (sum < 0)) (halved sum.natAbs)

theorem signedHalved_mono {a b : Int} (order : a ≤ b) : signedHalved a ≤ signedHalved b := by
  by_cases first : a < 0
  · by_cases second : b < 0
    · have := halved_mono (show b.natAbs ≤ a.natAbs by omega)
      simp only [signedHalved, first, second, decide_true, signed_true]
      omega
    · simp only [signedHalved, first, second, decide_true, decide_false, signed_true,
        signed_false]
      omega
  · have := halved_mono (show a.natAbs ≤ b.natAbs by omega)
    have second : ¬ b < 0 := by omega
    simp only [signedHalved, first, second, decide_false, signed_false]
    omega

theorem halved_zero : halved 0 = 0 := by
  have nothing := halved_double (c := 0) (by decide)
  rwa [show singleFormat.quanta 0 = 0 by decide, Nat.zero_mul, Nat.mul_zero] at nothing

theorem signedHalved_signed (negative : Bool) (n : Nat) :
    signedHalved (signed negative n) = signed negative (halved n) := by
  cases negative with
  | false =>
    rw [signed_false, signed_false, signedHalved, decide_eq_false (by omega), signed_false,
      Int.natAbs_natCast]
  | true =>
    rcases Nat.eq_zero_or_pos n with rfl | pos
    · simp [signedHalved, halved_zero]
    · rw [signed_true, signed_true, signedHalved, decide_eq_true (by omega), signed_true,
        Int.natAbs_neg, Int.natAbs_natCast]

theorem signedHalved_double (s : Bool) {c : Nat} (finite : c < singleFormat.infinity) :
    signedHalved (signed s (singleFormat.quanta c * finer) +
      signed s (singleFormat.quanta c * finer)) = signed s c := by
  have twice (n : Nat) : signed s n + signed s n = signed s (2 * n) := by
    cases s <;> simp only [signed_false, signed_true] <;> omega
  rw [twice, signedHalved_signed, halved_double finite]

/-- Codes with signs are ordered like the values that they stand for. -/
theorem signed_quanta_mono {s t : Bool} {c d : Nat} (order : signed s c ≤ signed t d) :
    signed s (singleFormat.quanta c * finer) ≤ signed t (singleFormat.quanta d * finer) := by
  have mono {m n : Nat} (less : m ≤ n) :
      singleFormat.quanta m * finer ≤ singleFormat.quanta n * finer :=
    Nat.mul_le_mul_right _ (singleFormat.quanta_strictMono.monotone less)
  cases s <;> cases t <;> simp only [signed_false, signed_true] at order ⊢
  · have := mono (show c ≤ d by omega)
    omega
  · obtain rfl : c = 0 := by omega
    obtain rfl : d = 0 := by omega
    rw [show singleFormat.quanta 0 = 0 by decide]
    omega
  · omega
  · have := mono (show d ≤ c by omega)
    omega

theorem widen_of_finite (s : Bool) {c : Nat} (finite : c < singleFormat.infinity) :
    (ofCode (singleFormat.pack s c)).widen.datum =
      .finite s (singleFormat.quanta c * finer) := by
  obtain ⟨w, inside, value⟩ := exists_double finite (n := 0) (by decide)
  rw [Nat.pow_zero, Nat.one_mul] at value
  have rounded : doubleFormat.round (singleFormat.quanta c * 2 ^ doubleFormat.unitShift)
      (2 ^ singleFormat.unitShift) = w := by
    rw [← finer_unit, ← Nat.mul_assoc, ← value]
    exact doubleFormat.round_quanta (by decide) (Nat.two_pow_pos _) inside
  rw [widen, datum_ofCode s finite.le, if_neg finite.ne, Format.convert, rounded,
    Double.datum_ofCode s inside.le, if_neg inside.ne, value]

theorem widen_of_infinite (s : Bool) :
    (ofCode (singleFormat.pack s singleFormat.infinity)).widen.datum = .infinite s := by
  rw [widen, datum_ofCode s (Nat.le_refl _), if_pos rfl, Format.convert,
    Double.datum_ofCode s (Nat.le_refl _), if_pos rfl]

theorem datum_two : (Double.ofNat 2).datum = .finite false (2 * 2 ^ doubleFormat.unitShift) := by
  obtain ⟨inside, value⟩ := doubleFormat.ofNat_spec (m := 1) (k := 1) (by decide) (by decide)
    (by decide)
  rw [Nat.one_mul, Nat.pow_one] at inside value
  rw [Double.ofNat, Double.datum_of_finite inside, value]

/-- Halving a sum and narrowing the half. -/
theorem narrow_half (s : Bool) {sum : Nat}
    (inside : doubleFormat.round sum 1 < doubleFormat.infinity) :
    (Double.ofCode (doubleFormat.pack s (doubleFormat.round sum 1)) / Double.ofNat 2).narrow =
      ofCode (singleFormat.pack s (halved sum)) := by
  rw [halved]
  generalize doubleFormat.round sum 1 = rounded at *
  have unit := Nat.two_pow_pos doubleFormat.unitShift
  -- the half is no greater than the sum, so it is finite as well
  have less : doubleFormat.round (doubleFormat.quanta rounded * 2 ^ doubleFormat.unitShift)
      (2 * 2 ^ doubleFormat.unitShift) ≤ rounded := by
    have halves := doubleFormat.round_mono (by decide) (Nat.mul_pos Nat.two_pos unit) unit
      (Nat.mul_le_mul_left (doubleFormat.quanta rounded * 2 ^ doubleFormat.unitShift)
        (Nat.le_mul_of_pos_left (2 ^ doubleFormat.unitShift) Nat.two_pos))
    rwa [doubleFormat.round_quanta (by decide) unit inside] at halves
  change Double.narrow (Double.ofCode (doubleFormat.div _ _)) = _
  rw [Double.datum_ofCode s inside.le, if_neg inside.ne, datum_two, Format.div,
    if_neg (Nat.mul_pos Nat.two_pos unit).ne', Bool.bne_false, Double.narrow,
    Double.datum_ofCode s (less.trans inside.le), if_neg (Nat.lt_of_le_of_lt less inside).ne,
    Format.convert]

/-- A sum of two finite singles does not overflow in double precision. -/
theorem sum_finite {c d sum : Nat} (hc : c < singleFormat.infinity)
    (hd : d < singleFormat.infinity)
    (bounded : sum ≤ singleFormat.quanta c * finer + singleFormat.quanta d * finer) :
    doubleFormat.round sum 1 < doubleFormat.infinity := by
  -- no more than twice the greater of the two, and that is a double
  obtain ⟨e, he, greater⟩ : ∃ e < singleFormat.infinity,
      sum ≤ 2 ^ 1 * (singleFormat.quanta e * finer) := by
    rcases Nat.le_total (singleFormat.quanta c * finer) (singleFormat.quanta d * finer)
      with less | less
    · exact ⟨d, hd, by omega⟩
    · exact ⟨c, hc, by omega⟩
  obtain ⟨w, inside, value⟩ := exists_double he (n := 1) (by decide)
  have below := doubleFormat.round_mono (by decide) Nat.one_pos Nat.one_pos
    (Nat.mul_le_mul_right 1 (greater.trans value.ge))
  rw [← Nat.mul_one (doubleFormat.quanta w),
    doubleFormat.round_quanta (by decide) Nat.one_pos inside] at below
  exact Nat.lt_of_le_of_lt below inside

/-- The mean of two finite numbers is half of their sum. -/
theorem rank_mean_of_finite (s t : Bool) {c d : Nat} (hc : c < singleFormat.infinity)
    (hd : d < singleFormat.infinity) :
    ((ofCode (singleFormat.pack s c)).mean (ofCode (singleFormat.pack t d))).rank =
      signedHalved (signed s (singleFormat.quanta c * finer) +
        signed t (singleFormat.quanta d * finer)) := by
  obtain ⟨u, n, bounded, total, sum⟩ := doubleFormat.add_of_finite s t
    (singleFormat.quanta c * finer) (singleFormat.quanta d * finer)
  have code : halved n ≤ singleFormat.infinity := singleFormat.round_le_infinity _ _
  change ((Double.ofCode (doubleFormat.add _ _) / Double.ofNat 2).narrow).rank = _
  rw [widen_of_finite s hc, widen_of_finite t hd, sum, narrow_half u (sum_finite hc hd bounded),
    rank_ofCode u code, ← total, signedHalved_signed]

theorem mean_infinity {s : Bool} {c : Nat} (bounded : c ≤ singleFormat.infinity)
    (other : s = true → c ≠ singleFormat.infinity) :
    (ofCode (singleFormat.pack s c)).mean
        (ofCode (singleFormat.pack false singleFormat.infinity)) =
      ofCode (singleFormat.pack false singleFormat.infinity) := by
  have sum : doubleFormat.add (ofCode (singleFormat.pack s c)).widen.datum
      (.infinite false) = doubleFormat.pack false doubleFormat.infinity := by
    rcases Nat.lt_or_eq_of_le bounded with finite | rfl
    · rw [widen_of_finite s finite, Format.add]
    · cases s with
      | false => rw [widen_of_infinite, Format.add, if_pos rfl]
      | true => exact absurd rfl (other rfl)
  change Double.narrow (Double.ofCode (doubleFormat.div
    (Double.ofCode (doubleFormat.add _ _)).datum _)) = _
  rw [widen_of_infinite, sum, Double.datum_ofCode false (Nat.le_refl _), if_pos rfl, datum_two,
    Format.div, bne_self_eq_false, Double.narrow, Double.datum_ofCode false (Nat.le_refl _),
    if_pos rfl, Format.convert]

/-- A mean never ranks below the lesser of its numbers. -/
theorem rank_le_mean {x y : Single} (order : x.rank ≤ y.rank) : x.rank ≤ (x.mean y).rank := by
  cases missing : y.isNaN with
  | true =>
    rw [rank_of_isNaN (isNaN_mean (.inr missing))]
    exact (rank_bounds x).2
  | false =>
    have number : x.isNaN = false := by
      by_contra top
      rw [Bool.not_eq_false] at top
      have := (key_bounds missing).2
      rw [rank_of_isNaN top, rank_of_number missing] at order
      omega
    obtain ⟨s, c, hc, rfl⟩ := exists_ofCode number
    obtain ⟨t, d, hd, rfl⟩ := exists_ofCode missing
    rw [rank_ofCode s hc, rank_ofCode t hd] at order
    -- nothing ranks below the least number, and the greatest one is its mean with any other
    by_cases least : s = true ∧ c = singleFormat.infinity
    · rw [rank_ofCode s hc, least.1, least.2]
      exact (rank_bounds _).1
    by_cases greatest : t = false ∧ d = singleFormat.infinity
    · obtain ⟨rfl, rfl⟩ := greatest
      rw [mean_infinity hc fun negative infinite => least ⟨negative, infinite⟩, rank_ofCode s hc,
        rank_ofCode false hd]
      exact order
    have some : 0 < singleFormat.infinity := by decide
    have finite : c < singleFormat.infinity ∧ d < singleFormat.infinity := by
      cases s <;> cases t <;> simp at order least greatest <;> omega
    -- else half of the sum is at least half of twice the lesser
    have values := signed_quanta_mono order
    rw [rank_mean_of_finite s t finite.1 finite.2, rank_ofCode s hc,
      ← signedHalved_double s finite.1]
    exact signedHalved_mono (by omega)

end Single

end VisualIndex
