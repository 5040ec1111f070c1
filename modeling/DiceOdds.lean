import DiceOdds.Quantity
import DiceOdds.Scalar
import DiceOdds.Operator
import DiceOdds.Expr.Basic
import DiceOdds.Expr.Bounds
import DiceOdds.Text.Basic
import DiceOdds.Text.Quoted
import DiceOdds.Binary64
import DiceOdds.Decimal
import DiceOdds.Grammar.Lexeme
import DiceOdds.Grammar.Fault
import DiceOdds.Grammar.Parse
import DiceOdds.Journal
import DiceOdds.Enumeration
import DiceOdds.Sampling.Basic
import DiceOdds.Sampling.Script
import DiceOdds.Summary
import DiceOdds.Settings
import DiceOdds.Distribution
import DiceOdds.Session.Chart
import DiceOdds.Session.Command
import DiceOdds.Session.Run
import DiceOdds.Main
import DiceOdds.Proofs.Leaves
import DiceOdds.Proofs.Ways
import DiceOdds.Proofs.MixedRadix
import DiceOdds.Proofs.SampledValue
import DiceOdds.Proofs.EnumeratedOutcomes
import DiceOdds.Proofs.Extended
import DiceOdds.Proofs.Hull
import DiceOdds.Proofs.Binary64.Nearest
import DiceOdds.Proofs.Binary64.Rounding
import DiceOdds.Proofs.Binary64.Unpacked
import DiceOdds.Proofs.Binary64.Arithmetic
import DiceOdds.Proofs.Lexing
import DiceOdds.Proofs.LongestMatch
import DiceOdds.Proofs.Derivation
import DiceOdds.Proofs.Reading
import DiceOdds.Proofs.Parsing
import DiceOdds.Proofs.Limits
import DiceOdds.Proofs.Printing
import DiceOdds.Proofs.RoundTrip
import DiceOdds.Proofs.Restyling
import DiceOdds.Proofs.Binary64.Value
import DiceOdds.Proofs.Binary64.Operations
import DiceOdds.Proofs.Binary64.Order
import DiceOdds.Proofs.Corners
import DiceOdds.Proofs.Enclosure
import DiceOdds.Proofs.SoundBounds
import DiceOdds.Proofs.SharpBounds
import DiceOdds.Proofs.Binary64.Integer
import DiceOdds.Proofs.Bins
import DiceOdds.Proofs.Weights
import DiceOdds.Proofs.Histogram
import DiceOdds.Proofs.ValidSettings
import DiceOdds.Proofs.Results
import DiceOdds.Proofs.Pipeline
import DiceOdds.Proofs.Folds
import DiceOdds.Proofs.Stops
import DiceOdds.Proofs.Places
import DiceOdds.Proofs.Tiling
import DiceOdds.Proofs.Positions
import DiceOdds.Proofs.Descent
import DiceOdds.Proofs.Automaton
import DiceOdds.Proofs.Precedence
import DiceOdds.Proofs.RollerCalls
import DiceOdds.Proofs.Refusals
import DiceOdds.Proofs.SampledOutcomes
import DiceOdds.Proofs.Replies
import DiceOdds.Proofs.Turns
import DiceOdds.Proofs.Sessions
import DiceOdds.Proofs.Averages
import DiceOdds.Proofs.Tails
import DiceOdds.Proofs.Moments
import DiceOdds.Proofs.Pools
import DiceOdds.Proofs.Finiteness
import DiceOdds.Proofs.Completion
import DiceOdds.Proofs.SettingChanges
import DiceOdds.Proofs.SettingLines
import DiceOdds.Proofs.ShownSettings
