import KifuRatings.Main
import KifuRatings.Proofs.GameRecord.ReadBack
import KifuRatings.Proofs.Intake.Forms
import KifuRatings.Proofs.Intake.Inputs
import KifuRatings.Proofs.Intake.History
import KifuRatings.Proofs.Intake.Lines
import KifuRatings.Proofs.Crosstable.Shares
import KifuRatings.Proofs.Crosstable.Recolouring
import KifuRatings.Proofs.Files.Growth
import KifuRatings.Proofs.Intake.Following
import KifuRatings.Proofs.Rating.Terms
import KifuRatings.Proofs.Rating.Climb
import KifuRatings.Proofs.Rating.Groups
import KifuRatings.Proofs.Rating.Definite
import KifuRatings.Proofs.Rating.Logistic
import KifuRatings.Proofs.Rating.Symmetry
import KifuRatings.Proofs.Rating.VirtualDraws
import KifuRatings.Proofs.Rating.Ascent
import KifuRatings.Proofs.Rating.DistantPrior
import KifuRatings.Proofs.Intake.Refusals
import KifuRatings.Proofs.Intake.Repetition
import KifuRatings.Proofs.Intake.WrittenLines
import KifuRatings.Proofs.GameRecord.Edits
import KifuRatings.Proofs.Summary.PlayerOrder
import KifuRatings.Proofs.Rating.Recast
import KifuRatings.Proofs.Rating.Strides
import KifuRatings.Proofs.Rating.MeanRating
import KifuRatings.Proofs.Rating.Rational
import KifuRatings.Proofs.Rating.Pivots
import KifuRatings.Proofs.Rating.Absorbing
import KifuRatings.Proofs.Decimal.Magnitude
import KifuRatings.Proofs.Rating.SpecialValues
import KifuRatings.Proofs.Rating.NotANumber
import KifuRatings.Proofs.GameRecord.Padding
import KifuRatings.Proofs.Intake.PaddedLines
import KifuRatings.Proofs.Rating.Uncertainty
import KifuRatings.Proofs.Rating.Overshoot
import KifuRatings.Proofs.Rating.Unbounded
import KifuRatings.Proofs.Intake.LineEndings
import KifuRatings.Proofs.Rating.Cells
import KifuRatings.Proofs.Crosstable.Printout
import KifuRatings.Proofs.Intake.Discovery
import KifuRatings.Proofs.Rating.Translation
import KifuRatings.Proofs.Rating.Partials
