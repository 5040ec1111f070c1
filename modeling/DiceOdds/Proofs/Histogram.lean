import DiceOdds.Proofs.Weights
import DiceOdds.Session.Chart

namespace DiceOdds.Session.Chart

open Binary64

def marks (share : ℚ) : ℕ := (saturated (nearest (nearest share * barWidth))).toNat

def bar (s : Summary) (b : Bin) : ℕ := (row s s.maxWeight b).bar

section Measures

variable {s : Summary} {weightOf : Bin → ℚ} {greatest : ℚ}

end Measures

example : lines (Summary.ofOutcomes .sampled [-3, -2, -2]) =
    ["   | Frequency",
      "-3 | #########################                          1",
      "-2 | ################################################## 2"] := by
  decide +kernel

end DiceOdds.Session.Chart
