import DiceOdds.Proofs.Bins

namespace DiceOdds

open Binary64

section Greatest

open ExtendedScalar

variable {α : Type} [ExtendedScalar α] (s : Summary)

end Greatest

namespace Summary

variable {w : Weighting} {xs : List Float}

end Summary

end DiceOdds
