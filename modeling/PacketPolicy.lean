import PacketPolicy.Collection.SortedMap
import PacketPolicy.Collection.SortedSet
import PacketPolicy.Text.Literal
import PacketPolicy.Text.Outline
import PacketPolicy.Ipv4
import PacketPolicy.Header.Packet
import PacketPolicy.Header.Match
import PacketPolicy.Header.Modification
import PacketPolicy.Encoding
import PacketPolicy.Table.Basic
import PacketPolicy.Table.Merge
import PacketPolicy.Policy.Basic
import PacketPolicy.Policy.Filter
import PacketPolicy.Policy.Printer
import PacketPolicy.Language.Lexeme
import PacketPolicy.Language.Grammar
import PacketPolicy.Language.Reader
import PacketPolicy.Term
import PacketPolicy.Sinks
import PacketPolicy.Controller.Store
import PacketPolicy.Controller.State
import PacketPolicy.Controller.Tracing
import PacketPolicy.Proofs.MapLookup
import PacketPolicy.Proofs.PredicateOrder
import PacketPolicy.Proofs.Rewriting
import PacketPolicy.Proofs.Verdict
import PacketPolicy.Proofs.TableEffect
import PacketPolicy.Proofs.Derivation
import PacketPolicy.Proofs.Shape
import PacketPolicy.Proofs.Shadowing
import PacketPolicy.Proofs.Evaluation
import PacketPolicy.Proofs.PolicyParts
import PacketPolicy.Proofs.Restriction
import PacketPolicy.Proofs.Correctness
import PacketPolicy.Proofs.Filters
import PacketPolicy.Proofs.Reception
import PacketPolicy.Proofs.Terminals
import PacketPolicy.Proofs.Elaboration
import PacketPolicy.Proofs.SettledPolicies
import PacketPolicy.Proofs.Compilability
import PacketPolicy.Proofs.Layout
import PacketPolicy.Proofs.Reading
import PacketPolicy.Proofs.Rendering
import PacketPolicy.Proofs.Precedence
import PacketPolicy.Proofs.Printing
import PacketPolicy.Proofs.Effects
import PacketPolicy.Proofs.RoundTrip
import PacketPolicy.Proofs.NormalForms
import PacketPolicy.Proofs.Mentions
import PacketPolicy.Proofs.Unfolding
import PacketPolicy.Proofs.Dependencies
import PacketPolicy.Proofs.Commands
import PacketPolicy.Proofs.FilterTyping
import PacketPolicy.Proofs.Recompilation
import PacketPolicy.Proofs.Accounting
import PacketPolicy.Proofs.Rounds
import PacketPolicy.Proofs.PredicateExactness
import PacketPolicy.Proofs.Meaning
import PacketPolicy.Proofs.Modes
import PacketPolicy.Proofs.Lookups
import PacketPolicy.Proofs.Exposure
import PacketPolicy.Proofs.Plainness
import PacketPolicy.Proofs.Canonicity
import PacketPolicy.Proofs.Operators
import PacketPolicy.Proofs.FilterAlgebra
import PacketPolicy.Proofs.Expressions
import PacketPolicy.Proofs.Independence
import PacketPolicy.Proofs.Flooding
import PacketPolicy.Proofs.EdgeFilters
import PacketPolicy.Proofs.JsonForms
import PacketPolicy.Proofs.NegatedRules
