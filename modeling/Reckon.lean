import Reckon.Answer
import Reckon.Binary64.Basic
import Reckon.Binary64.Elementary
import Reckon.Binary64.Shortest
import Reckon.CommandLine.Dialogue
import Reckon.CommandLine.Options
import Reckon.CommandLine.Outcome
import Reckon.CommandLine.Report
import Reckon.Decimal.Arithmetic
import Reckon.Decimal.Basic
import Reckon.Decimal.Digits
import Reckon.Decimal.Text
import Reckon.Enclosure.Basic
import Reckon.Enclosure.Series
import Reckon.Failure
import Reckon.Formula.Bindings
import Reckon.Formula.CallStack
import Reckon.Formula.Numeral
import Reckon.Formula.Prepared
import Reckon.Formula.Printer
import Reckon.Formula.Reader
import Reckon.Main
import Reckon.Numeric.Angle
import Reckon.Numeric.Apply
import Reckon.Numeric.Basic
import Reckon.Numeric.Circular
import Reckon.Numeric.Hyperbolic
import Reckon.Numeric.Integer
import Reckon.Numeric.Root
import Reckon.Operator
import Reckon.Proofs.AlikeArithmetic
import Reckon.Proofs.AlikeDoubles
import Reckon.Proofs.AlikeFractions
import Reckon.Proofs.AlikeOrder
import Reckon.Proofs.AlikeValues
import Reckon.Proofs.AngleConversions
import Reckon.Proofs.AngleUnits
import Reckon.Proofs.AnswersInOrder
import Reckon.Proofs.BracketedNotation
import Reckon.Proofs.Brackets
import Reckon.Proofs.Calls
import Reckon.Proofs.Characters
import Reckon.Proofs.CollapsedSigns
import Reckon.Proofs.Collapses
import Reckon.Proofs.Cycles
import Reckon.Proofs.DecimalOrder
import Reckon.Proofs.DecimalValue
import Reckon.Proofs.DerivativeRules
import Reckon.Proofs.Derivatives
import Reckon.Proofs.Dialogues
import Reckon.Proofs.DifferenceRules
import Reckon.Proofs.Digits
import Reckon.Proofs.DirectRecursion
import Reckon.Proofs.Display
import Reckon.Proofs.Displayable
import Reckon.Proofs.DualDerivatives
import Reckon.Proofs.DualNumbers
import Reckon.Proofs.Ensures
import Reckon.Proofs.ExactArithmetic
import Reckon.Proofs.ExactRoundings
import Reckon.Proofs.ExactValue
import Reckon.Proofs.Failures
import Reckon.Proofs.FiniteAnswers
import Reckon.Proofs.FiniteNumbers
import Reckon.Proofs.FiniteValues
import Reckon.Proofs.FittingValues
import Reckon.Proofs.FixedPoint
import Reckon.Proofs.FlatChains
import Reckon.Proofs.FoldedConstants
import Reckon.Proofs.Foreseen
import Reckon.Proofs.Forms
import Reckon.Proofs.Gives
import Reckon.Proofs.IndependentRequests
import Reckon.Proofs.Juxtaposition
import Reckon.Proofs.LikeTerms
import Reckon.Proofs.LinearRules
import Reckon.Proofs.LongestMatch
import Reckon.Proofs.Meaning
import Reckon.Proofs.Memory
import Reckon.Proofs.NeatNames
import Reckon.Proofs.NewtonSteps
import Reckon.Proofs.Normal
import Reckon.Proofs.NormalRules
import Reckon.Proofs.NotationRoundTrip
import Reckon.Proofs.Numerals
import Reckon.Proofs.OperandPieces
import Reckon.Proofs.PartialDerivative
import Reckon.Proofs.Phrase
import Reckon.Proofs.PiecewiseDerivatives
import Reckon.Proofs.Places
import Reckon.Proofs.PlainTexts
import Reckon.Proofs.PowersOfTen
import Reckon.Proofs.Precedence
import Reckon.Proofs.PrefixApplications
import Reckon.Proofs.Prepared
import Reckon.Proofs.PreparedAround
import Reckon.Proofs.PreparedTwice
import Reckon.Proofs.Printing
import Reckon.Proofs.ProductRules
import Reckon.Proofs.RationalAnswers
import Reckon.Proofs.ReachedBindings
import Reckon.Proofs.ReaderSteps
import Reckon.Proofs.Reading
import Reckon.Proofs.RealAnswers
import Reckon.Proofs.RealChainRule
import Reckon.Proofs.RealDerivatives
import Reckon.Proofs.RealFunctions
import Reckon.Proofs.RealMeaning
import Reckon.Proofs.RealSlopes
import Reckon.Proofs.References
import Reckon.Proofs.ReportedTexts
import Reckon.Proofs.Results
import Reckon.Proofs.RootAccuracy
import Reckon.Proofs.RootRest
import Reckon.Proofs.RootSteps
import Reckon.Proofs.RoundTrip
import Reckon.Proofs.RoundedFractions
import Reckon.Proofs.RoundedOnce
import Reckon.Proofs.RoundedTwice
import Reckon.Proofs.Scientific
import Reckon.Proofs.ScientificNotation
import Reckon.Proofs.Shown
import Reckon.Proofs.SideBySide
import Reckon.Proofs.SignPairs
import Reckon.Proofs.Signs
import Reckon.Proofs.Simplification
import Reckon.Proofs.SpareLevels
import Reckon.Proofs.Spelling
import Reckon.Proofs.Substitution
import Reckon.Proofs.SumRules
import Reckon.Proofs.Swapped
import Reckon.Proofs.SwappedValues
import Reckon.Proofs.TargetNames
import Reckon.Proofs.Termination
import Reckon.Proofs.Terms
import Reckon.Proofs.Unknowns
import Reckon.Proofs.Unlimited
import Reckon.Proofs.UsableNames
import Reckon.Proofs.Validated
import Reckon.Proofs.Vanishing
import Reckon.Proofs.WeightRules
import Reckon.Proofs.Weights
import Reckon.Proofs.Words
import Reckon.Session.Calculator
import Reckon.Session.Differentiator
import Reckon.Session.Evaluator
import Reckon.Session.Event
import Reckon.Simplify.Basic
import Reckon.Simplify.Combine
import Reckon.Simplify.Difference
import Reckon.Simplify.Pass
import Reckon.Simplify.Plan
import Reckon.Simplify.Power
import Reckon.Simplify.Product
import Reckon.Simplify.Quotient
import Reckon.Simplify.Sum
import Reckon.Text.Blank
import Reckon.Text.CaseTable
import Reckon.Text.Digit
import Reckon.Text.Lowercase
import Reckon.Text.Piece
import Reckon.Text.PrintableTable
import Reckon.Text.Quoted
import Reckon.Tree.Basic
import Reckon.Tree.Derivative
import Reckon.Tree.Notation
import Reckon.Tree.Spine
import Reckon.Tree.Value
