import SecurityRules.Predicate.Shorthand
import SecurityRules.Shorthand.Parse
import SecurityRules.Schema.Validator
import SecurityRules.Ruleset
import SecurityRules.Proofs.Shorthand.BareWord
import SecurityRules.Proofs.Shorthand.Operand
import SecurityRules.Proofs.Shorthand.Gap
import SecurityRules.Proofs.Shorthand.Joint
import SecurityRules.Proofs.Shorthand.Phrase
import SecurityRules.Proofs.Shorthand.Completeness
import SecurityRules.Proofs.Shorthand.Soundness
import SecurityRules.Proofs.Formula.Fold
import SecurityRules.Proofs.Shorthand.Tokens
import SecurityRules.Proofs.Formula.Collapse
import SecurityRules.Proofs.Shorthand.RoundTrip
import SecurityRules.Proofs.Shorthand.Extension
import SecurityRules.Proofs.Shorthand.Composition
import SecurityRules.Proofs.Shorthand.FaultPlace
import SecurityRules.Proofs.Shorthand.Enclosing
import SecurityRules.Proofs.Shorthand.Regrouping
import SecurityRules.Proofs.Shorthand.Canonical
import SecurityRules.Proofs.Formula.Rendering
import SecurityRules.Proofs.Shorthand.Resolved
import SecurityRules.Proofs.Schema.Building
import SecurityRules.Proofs.Shorthand.JsonText
import SecurityRules.Proofs.Schema.Requirement
import SecurityRules.Proofs.Schema.Expression
import SecurityRules.Proofs.Schema.Grouping
import SecurityRules.Proofs.Formula.Truth
import SecurityRules.Proofs.Schema.Meaning
import SecurityRules.Proofs.Schema.FieldAsValidator
import SecurityRules.Proofs.Formula.Faithful
import SecurityRules.Proofs.Formula.Failure
import SecurityRules.Proofs.Schema.Failure
import SecurityRules.Proofs.Collection.FirstFault
import SecurityRules.Proofs.Schema.Buildable
import SecurityRules.Proofs.Collection.Built
import SecurityRules.Proofs.Collection.Outline
import SecurityRules.Proofs.Collection.Listing
import SecurityRules.Proofs.Collection.Grants
import SecurityRules.Proofs.Predicate.Faults
import SecurityRules.Proofs.Predicate.TwoScopes
import SecurityRules.Proofs.Collection.GuardText
import SecurityRules.Proofs.Collection.Lockout
import SecurityRules.Proofs.Schema.ElementName
import SecurityRules.Proofs.Schema.Quantifier
import SecurityRules.Proofs.Schema.Capture
import SecurityRules.Proofs.Keyed
import SecurityRules.Proofs.Schema.History
import SecurityRules.Proofs.Schema.FieldHistory
import SecurityRules.Proofs.Schema.Template
import SecurityRules.Proofs.Schema.Uniform
import SecurityRules.Proofs.Text.JsonReading
import SecurityRules.Proofs.Schema.KeyList
import SecurityRules.Proofs.Shorthand.Nesting
import SecurityRules.Proofs.Shorthand.Repetition
import SecurityRules.Proofs.Shorthand.Termination
