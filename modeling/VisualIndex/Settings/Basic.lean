import VisualIndex.Number.Shortest
import VisualIndex.WeightTable.Cache

/-! Settings of the voting weights.

`sigma` is the width of the Gaussian in bits of distance. Where no cut-off is set it is
one and a half times the width, rounded. -/
namespace VisualIndex

structure Settings where
  sigma : Single
  cutoff : Option UInt64
  deriving DecidableEq

namespace Settings

/-- 16. -/
def defaultSigma : Single := ⟨0x41800000⟩

/-- One and a half. -/
def cutoffFactor : Single := ⟨0x3fc00000⟩

def default : Settings := ⟨defaultSigma, none⟩

/-- Equality of settings, the width as a number. -/
def numEq (s t : Settings) : Bool := s.sigma.numEq t.sigma && s.cutoff = t.cutoff

/-- The width has to be a positive number. -/
def check (s : Settings) : Except RecordError Unit :=
  if s.sigma.isFinite && s.sigma.gt .zero then .ok ()
  else
    let number := s.sigma.plainText
    .error (.invalidSettings s!"`sigma` must be a positive number, got {number}.")

/-- The distance beyond which votes count nothing. -/
def effectiveCutoff (s : Settings) : UInt64 :=
  s.cutoff.getD (cutoffFactor * s.sigma).roundToWord

/-- The key of the weight table for signatures of some width. -/
def tableKey (s : Settings) (bits : Nat) : WeightKey :=
  ⟨bits, s.sigma, s.effectiveCutoff.toNat⟩

/-- The shared weight table of valid settings. -/
def sharedTable (s : Settings) (bits : Nat) (cache : WeightCache) :
    Except RecordError (SharedTable × WeightCache) :=
  match s.check with
  | .error error => .error error
  | .ok () => .ok (cache.request (s.tableKey bits))

end Settings

end VisualIndex
