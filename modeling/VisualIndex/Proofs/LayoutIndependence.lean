import VisualIndex.Proofs.DocumentScanner
import VisualIndex.Proofs.NumberAccuracy
import VisualIndex.Storage

/-! Settings do not depend on the layout of their document.

Of all that is written in a document only its widths and cut-offs count. With at most one of
each it is loaded, in whatever order and layout, as the settings they give; with a second one
of either it is mistyped. What double a number is converted to is up to the library. -/
namespace VisualIndex

open Json

namespace Settings

namespace Entry

def width? : Entry → Option WrittenNumber
  | sigma n => some n
  | _ => none

def limit? : Entry → Option (Option PlainNumber)
  | cutoff limit => some limit
  | _ => none

end Entry

namespace WrittenSettings

/-- The numbers that are written for the width. -/
def widths (s : WrittenSettings) : List WrittenNumber := s.entries.filterMap Entry.width?

/-- What is written for the cut-off. -/
def limits (s : WrittenSettings) : List (Option PlainNumber) := s.entries.filterMap Entry.limit?

end WrittenSettings

/-- The width that the written ones give: 16 if there is none. -/
inductive GivesWidth (double : Numeral → Except DocumentFault Double) :
    List WrittenNumber → Single → Prop where
  | missing : GivesWidth double [] (.ofNat 16)
  | one {n : WrittenNumber} {number : Number} :
    n.numeral.value double = .ok number → GivesWidth double [n] number.toSingle

/-- The cut-off that the written ones give. -/
inductive GivesCutoff : List (Option PlainNumber) → Option UInt64 → Prop where
  | missing : GivesCutoff [] none
  | one (limit : Option PlainNumber) : GivesCutoff [limit] (limit.map PlainNumber.word)

section Joining

variable {double : Numeral → Except DocumentFault Double} {entries : List Entry} {m : Members}
  {n : WrittenNumber} {width : Single} {widths : List Single}

theorem join_sigma (first : m.sigma = none) (read : n.width double = .ok width) :
    (Entry.sigma n).join double m = .ok { m with sigma := some width } := by
  obtain ⟨number, value, rfl⟩ := WrittenNumber.width_eq_ok_iff.mp read
  rw [Entry.join, first]
  exact bind_of_value value _

theorem join_cutoff (first : m.cutoff = none) (limit : Option PlainNumber) :
    (Entry.cutoff limit).join double m =
      .ok { m with cutoff := some (limit.map PlainNumber.word) } := by
  rw [Entry.join, first]
  rfl

/-- How many widths there are, those seen before and those still to come. -/
def countWidths (m : Members) (entries : List Entry) : Nat :=
  m.sigma.toList.length + (entries.filterMap Entry.width?).length

/-- How many cut-offs there are, those seen before and those still to come. -/
def countLimits (m : Members) (entries : List Entry) : Nat :=
  m.cutoff.toList.length + (entries.filterMap Entry.limit?).length

/-- With at most one of each kind every entry joins. -/
theorem joinAll_of_few
    (read : (entries.filterMap Entry.width?).map (WrittenNumber.width double) = widths.map .ok)
    (few : countWidths m entries ≤ 1) (few' : countLimits m entries ≤ 1) :
    joinAll double entries m = .ok ⟨m.sigma <|> widths.head?,
      m.cutoff <|> (entries.filterMap Entry.limit?).head?.map (·.map PlainNumber.word)⟩ := by
  induction entries generalizing m widths with
  | nil =>
    obtain rfl : widths = [] := by simpa using read
    cases m
    simp [joinAll]
    rfl
  | cons e entries ih =>
    rw [joinAll_cons]
    cases e with
    | sigma n =>
      obtain ⟨width, widths, rfl, value, rest⟩ := List.map_eq_cons_iff.mp read.symm
      have first : m.sigma = none := by
        cases sigma : m.sigma with
        | none => rfl
        | some _ => simp [countWidths, sigma, Entry.width?] at few
      have seen : countWidths { m with sigma := some width } entries ≤ 1 := by
        simpa [countWidths, first, Entry.width?, Nat.add_comm] using few
      have others : countLimits { m with sigma := some width } entries ≤ 1 := few'
      rw [bind_of_value (join_sigma first value.symm), ih rest.symm seen others, first]
      rfl
    | cutoff limit =>
      have first : m.cutoff = none := by
        cases cutoff : m.cutoff with
        | none => rfl
        | some _ => simp [countLimits, cutoff, Entry.limit?] at few'
      have seen : countLimits { m with cutoff := some (limit.map PlainNumber.word) } entries ≤
          1 := by
        simpa [countLimits, first, Entry.limit?, Nat.add_comm] using few'
      have others : countWidths { m with cutoff := some (limit.map PlainNumber.word) } entries ≤
          1 := few
      rw [bind_of_value (join_cutoff first limit), ih read others seen, first]
      rfl
    | foreign key other value written => exact ih read few few'

/-- With a second one of either kind the document is mistyped. -/
theorem joinAll_of_many
    (read : (entries.filterMap Entry.width?).map (WrittenNumber.width double) = widths.map .ok)
    (many : 1 < countWidths m entries ∨ 1 < countLimits m entries) :
    joinAll double entries m = .error .mistyped := by
  induction entries generalizing m widths with
  | nil =>
    exfalso
    rcases many with many | many
    · cases sigma : m.sigma <;> simp [countWidths, sigma] at many
    · cases cutoff : m.cutoff <;> simp [countLimits, cutoff] at many
  | cons e entries ih =>
    rw [joinAll_cons]
    cases e with
    | sigma n =>
      obtain ⟨width, widths, rfl, value, rest⟩ := List.map_eq_cons_iff.mp read.symm
      cases sigma : m.sigma with
      | some width =>
        rw [Entry.join, sigma]
        rfl
      | none =>
        rw [bind_of_value (join_sigma sigma value.symm), ih rest.symm]
        refine many.imp_left fun many => ?_
        simpa [countWidths, sigma, Entry.width?, Nat.add_comm] using many
    | cutoff limit =>
      cases cutoff : m.cutoff with
      | some width =>
        rw [Entry.join, cutoff]
        rfl
      | none =>
        rw [bind_of_value (join_cutoff cutoff limit), ih read]
        refine many.imp_right fun many => ?_
        simpa [countLimits, cutoff, Entry.limit?, Nat.add_comm] using many
    | foreign key other value written => exact ih read many

end Joining

section Loading

variable {library : DocumentLibrary} (reads : library.ReadsDocuments) {d d' : Directory}
  {folder folder' : Path} {s t : WrittenSettings} {widths : List Single}
include reads

/-- A stored document is loaded as its entries join. -/
theorem load_stored (stored : d.openItem (folder.child fileName) = .ok (.file s.octets)) :
    load library d folder = ((joinAll library.double s.entries ⟨none, none⟩).map
      Members.toSettings).mapError .document := by
  simp only [load, stored, reads.read_octets]

variable (stored : d.openItem (folder.child fileName) = .ok (.file s.octets))
  (read : s.widths.map (WrittenNumber.width library.double) = widths.map .ok)
include stored read

theorem load_of_few (few : s.widths.length ≤ 1) (few' : s.limits.length ≤ 1) :
    load library d folder = .ok ⟨widths.head?.getD defaultSigma,
      (s.limits.map (·.map PlainNumber.word)).head?.getD none⟩ := by
  have first : countWidths ⟨none, none⟩ s.entries ≤ 1 := by
    simpa [countWidths, WrittenSettings.widths] using few
  have second : countLimits ⟨none, none⟩ s.entries ≤ 1 := by
    simpa [countLimits, WrittenSettings.limits] using few'
  rw [load_stored reads stored, joinAll_of_few read first second, List.head?_map]
  rfl

theorem load_of_many (many : 1 < s.widths.length ∨ 1 < s.limits.length) :
    load library d folder = .error (.document .mistyped) := by
  have counted : 1 < countWidths ⟨none, none⟩ s.entries ∨
      1 < countLimits ⟨none, none⟩ s.entries := by
    simpa [countWidths, countLimits, WrittenSettings.widths, WrittenSettings.limits] using many
  rw [load_stored reads stored, joinAll_of_many read counted]
  rfl

/-- Only the values of the widths and cut-offs count, and not even for which of them is
written first. -/
theorem load_of_same (stored' : d'.openItem (folder'.child fileName) = .ok (.file t.octets))
    (same : t.widths.map (WrittenNumber.width library.double) =
      s.widths.map (WrittenNumber.width library.double))
    (limits : t.limits.map (·.map PlainNumber.word) = s.limits.map (·.map PlainNumber.word)) :
    load library d' folder' = load library d folder := by
  have read' := same.trans read
  have sizes : t.widths.length = s.widths.length := by simpa using congrArg List.length same
  have sizes' : t.limits.length = s.limits.length := by simpa using congrArg List.length limits
  by_cases few : s.widths.length ≤ 1 ∧ s.limits.length ≤ 1
  · rw [load_of_few reads stored read few.1 few.2,
      load_of_few reads stored' read' (sizes ▸ few.1) (sizes' ▸ few.2), limits]
  · have many : 1 < s.widths.length ∨ 1 < s.limits.length := by omega
    rw [load_of_many reads stored read many, load_of_many reads stored' read' (by omega)]

end Loading

section Values

variable {double : Numeral → Except DocumentFault Double} {ns : List WrittenNumber}

/-- Numbers that fit have widths. -/
theorem exists_widths (fits : ∀ n ∈ ns, n.Fits double) :
    ∃ widths : List Single, ns.map (WrittenNumber.width double) = widths.map .ok := by
  induction ns with
  | nil => exact ⟨[], rfl⟩
  | cons n ns ih =>
    obtain ⟨number, value⟩ := fits n List.mem_cons_self
    obtain ⟨widths, values⟩ := ih fun n hn => fits n (List.mem_cons_of_mem _ hn)
    have width := WrittenNumber.width_eq_ok_iff.mpr ⟨number, value, rfl⟩
    exact ⟨number.toSingle :: widths, by rw [List.map_cons, List.map_cons, width, values]⟩

theorem givesWidth_of_few {widths : List Single}
    (read : ns.map (WrittenNumber.width double) = widths.map .ok) (few : ns.length ≤ 1) :
    GivesWidth double ns (widths.head?.getD defaultSigma) := by
  have sixteen : defaultSigma = .ofNat 16 := by decide +kernel
  match ns, few with
  | [], _ =>
    obtain rfl : widths = [] := by simpa using read
    rw [List.head?_nil, Option.getD_none, sixteen]
    exact .missing
  | [n], _ =>
    obtain ⟨width, widths, rfl, first, -⟩ := List.map_eq_cons_iff.mp read.symm
    obtain ⟨number, value, rfl⟩ := WrittenNumber.width_eq_ok_iff.mp first.symm
    exact .one value

theorem givesCutoff_of_few {limits : List (Option PlainNumber)} (few : limits.length ≤ 1) :
    GivesCutoff limits ((limits.map (·.map PlainNumber.word)).head?.getD none) := by
  match limits, few with
  | [], _ => exact .missing
  | [limit], _ => exact .one limit

end Values

/-- An index whose settings are some document. -/
def indexWith (s : WrittenSettings) : Directory :=
  { root := .folder [("index", .folder [(fileName, .file s.octets)])] }

/-- The number 2.5. -/
def twoAndHalf : WrittenNumber :=
  ⟨false, .ofNat 2, Figures.isLeading_ofNat 2, some (.ofNat 5), none⟩

theorem isSafe_twoAndHalf : twoAndHalf.IsSafe := by
  have figures : twoAndHalf.significand = 25 := by decide +kernel
  have places : twoAndHalf.shift - twoAndHalf.places.length = -1 := by decide +kernel
  have room : ((3 : Nat) : ℚ) ≤ safeMagnitude := Nat.cast_le.mpr (by decide +kernel)
  refine ⟨le_trans ?_ room, by decide +kernel⟩
  rw [WrittenNumber.magnitude, figures, places]
  norm_num

/-- A list of an object and of a number that is out of range. -/
theorem written_nested : Written .value (octets "[\x7b\"y\":null\x7d,-1e999]".toList) := by
  let huge : WrittenNumber :=
    ⟨true, .ofNat 1, Figures.isLeading_ofNat 1, none, some ⟨false, none, .ofNat 999⟩⟩
  have label : IsLabel .object _ :=
    .object [.plain 'y' (by decide)] isBlanks_nil isBlanks_nil
  have first := Written.enclosed (.last (.item label isBlanks_nil .null) isBlanks_nil)
  have second := Written.last (.item .list isBlanks_nil (.number huge)) isBlanks_nil
  exact .enclosed (.more (.item .list isBlanks_nil first) isBlanks_nil second)

/-- The key of the width with its second letter escaped. -/
theorem standFor_escaped : StandFor [.plain 's' (by decide),
    .unit ⟨⟨0, false⟩, ⟨0, false⟩, ⟨6, false⟩, ⟨9, false⟩⟩, .plain 'g' (by decide),
    .plain 'm' (by decide), .plain 'a' (by decide)] sigmaKey.toList :=
  .plain _ (.unit (by decide) (by decide) (.plain _ (.plain _ (.plain _ .nil))))

/-- A document of a foreign member, the width and the cut-off. -/
def nestedDocument : WrittenSettings where
  before := ⟨[0x20], List.forall_mem_singleton.mpr rfl⟩
  inner := .none
  members :=
    [.tight (.foreign ['b'] (by decide +kernel) _ written_nested)
        (List.forall_mem_singleton.mpr (by decide)),
      ⟨.sigma twoAndHalf, _, standFor_escaped, .none, ⟨[0x20], List.forall_mem_singleton.mpr rfl⟩,
        .none, .none⟩,
      .tight (.cutoff (some ⟨.ofNat 12, Figures.isLeading_ofNat 12, by decide +kernel⟩))
        unescaped_cutoffKey]
  after := .none

/-- A document with a width and nothing else. -/
def widthDocument (n : WrittenNumber) : WrittenSettings :=
  ⟨.none, .none, [.tight (.sigma n) unescaped_sigmaKey], .none⟩

theorem load_widthDocument (n : WrittenNumber) :
    load .scaling (indexWith (widthDocument n)) (.ofText "index/") =
      ((n.width Numeral.toDouble).map (Settings.mk · none)).mapError .document := by
  have reads : DocumentLibrary.scaling.ReadsDocuments := DocumentLibrary.scanner_readsDocuments _
  rw [load_stored reads (s := widthDocument n) rfl]
  change ((joinAll Numeral.toDouble [.sigma n] ⟨none, none⟩).map _).mapError _ = _
  rw [joinAll_cons, Entry.join, WrittenNumber.width]
  cases n.numeral.value Numeral.toDouble <;> rfl

/-- The number 1.797693134862315708e308. -/
def nearGreatest : WrittenNumber :=
  ⟨false, .ofNat 1, Figures.isLeading_ofNat 1, some (.ofNat 797693134862315708),
    some ⟨false, none, .ofNat 308⟩⟩

theorem nearGreatest_le : ∃ x : Double, ∃ q : Nat, x.datum = .finite false q ∧
    nearGreatest.exactValue * unit ≤ q := by
  obtain ⟨c, finite, greatest⟩ := exists_greatest
  have below : ((1797693134862315708 * 10 ^ 290 * unit : Nat) : ℚ) ≤ greatestQuanta :=
    Nat.cast_le.mpr (by decide +kernel)
  have figures : nearGreatest.significand = 1797693134862315708 := by decide +kernel
  have places : nearGreatest.shift - nearGreatest.places.length = (290 : Nat) := by
    decide +kernel
  have sign : nearGreatest.negative = false := rfl
  refine ⟨.ofCode c, _, Double.datum_of_finite finite, ?_⟩
  rw [greatest, WrittenNumber.exactValue, sign, if_neg (by decide), WrittenNumber.magnitude,
    figures, places, zpow_natCast]
  simpa only [Nat.cast_mul, Nat.cast_pow, Nat.cast_ofNat] using below

/-- The number 0.1000000052154064178466796875, halfway between two singles. -/
def halfwayTenth : WrittenNumber :=
  ⟨false, .ofNat 0, Figures.isLeading_ofNat 0, some (.ofNat 1000000052154064178466796875), none⟩

theorem halfwayTenth_eq : ∃ x : Double, ∃ q : Nat, x.datum = .finite false q ∧
    halfwayTenth.exactValue * unit = q ∧ x.narrow = ⟨0x3dccccce⟩ := by
  obtain ⟨c, finite, value⟩ := doubleFormat.exists_code (m := 26843547) (k := 1046)
    (by decide) (by decide)
  have figures : halfwayTenth.significand = 1000000052154064178466796875 := by decide +kernel
  have places : halfwayTenth.shift - halfwayTenth.places.length = -(28 : Nat) := by
    decide +kernel
  have sign : halfwayTenth.negative = false := rfl
  have equal : ((1000000052154064178466796875 * unit : Nat) : ℚ) =
      (26843547 * 2 ^ 1046 * 10 ^ 28 : Nat) :=
    congrArg Nat.cast (by decide +kernel)
  refine ⟨.ofCode c, _, Double.datum_of_finite finite, ?_, ?_⟩
  · rw [value, WrittenNumber.exactValue, sign, if_neg (by decide), WrittenNumber.magnitude,
      figures, places, zpow_neg, zpow_natCast, mul_right_comm, ← div_eq_mul_inv,
      div_eq_iff (by norm_num)]
    simpa only [Nat.cast_mul, Nat.cast_pow, Nat.cast_ofNat] using equal
  · rw [Double.narrow_of_finite finite, value]
    decide +kernel

end Settings

end VisualIndex
