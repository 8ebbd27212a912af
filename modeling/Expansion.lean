import Expansion.Bindings
import Expansion.Bindings.Reader
import Expansion.CommandLine
import Expansion.Error
import Expansion.Expression
import Expansion.Expression.Operations
import Expansion.Expression.Resolution
import Expansion.Item
import Expansion.Lexeme
import Expansion.Logged
import Expansion.Main
import Expansion.Monomial
import Expansion.Numeral
import Expansion.Options
import Expansion.Outline
import Expansion.Outline.Node
import Expansion.Polynomial
import Expansion.Polynomial.Reader
import Expansion.Record
import Expansion.Request
import Expansion.Session
import Expansion.Session.Register
import Expansion.Session.Step
import Expansion.Span
import Expansion.Term
import Expansion.Term.Evaluate
import Expansion.Term.Order
import Expansion.Term.Reader
import Expansion.Text.Blank
import Expansion.Text.Parts
import Expansion.Token
import Expansion.Proofs.Exponents
import Expansion.Proofs.Weight
import Expansion.Proofs.Order
import Expansion.Proofs.GradedOrder
import Expansion.Proofs.Reduction
import Expansion.Proofs.Canonical
import Expansion.Proofs.Value
import Expansion.Proofs.Uniqueness
import Expansion.Proofs.Formula
import Expansion.Proofs.Outcome
import Expansion.Proofs.Representation
import Expansion.Proofs.Meaning
import Expansion.Proofs.MonomialReader
import Expansion.Proofs.Phrase
import Expansion.Proofs.Passes
import Expansion.Proofs.Summands
import Expansion.Proofs.Arrangement
import Expansion.Proofs.Sequence
import Expansion.Proofs.Outlines
import Expansion.Proofs.Derivation
import Expansion.Proofs.Parsing
import Expansion.Proofs.Tokens
import Expansion.Proofs.Rendering
import Expansion.Proofs.RoundTrip
import Expansion.Proofs.Evaluation
import Expansion.Proofs.Degree
import Expansion.Proofs.Replacement
import Expansion.Proofs.ZeroFactors
import Expansion.Proofs.Parentheses
import Expansion.Proofs.RingLaws
import Expansion.Proofs.Specialization
import Expansion.Proofs.Relocation
import Expansion.Proofs.MovedOutlines
import Expansion.Proofs.Context
import Expansion.Proofs.Locality
import Expansion.Proofs.Log
import Expansion.Proofs.Groups
import Expansion.Proofs.Chains
import Expansion.Proofs.Partners
import Expansion.Proofs.Defects
import Expansion.Proofs.Nodes
import Expansion.Proofs.Reports
import Expansion.Proofs.Slices
import Expansion.Proofs.Entries
import Expansion.Proofs.ErrorRegions
import Expansion.Proofs.Guards
import Expansion.Proofs.BindingGrammar
import Expansion.Proofs.GuardedTerms
import Expansion.Proofs.Fields
import Expansion.Proofs.SessionTerms
import Expansion.Proofs.Arena
import Expansion.Proofs.ClosingOrder
import Expansion.Proofs.Walks
import Expansion.Proofs.Slots
import Expansion.Proofs.Safety
import Expansion.Proofs.SlotStates
import Expansion.Proofs.ResolutionOrder
import Expansion.Proofs.AnyNames
import Expansion.Proofs.NestingLimit
import Expansion.Proofs.SummandTerms
import Expansion.Proofs.Ends
import Expansion.Proofs.BindingSets
import Expansion.Proofs.Spacing
import Expansion.Proofs.SignedMonomials
import Expansion.Proofs.TermProducts
import Expansion.Proofs.TermGrammar
import Expansion.Proofs.Partition
import Expansion.Proofs.Idempotence
import Expansion.Proofs.PassErrors
import Expansion.Proofs.MissingOperands
import Expansion.Proofs.ParenthesizedText
import Expansion.Proofs.ParenthesizedErrors
