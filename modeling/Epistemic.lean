import Epistemic.Action.Basic
import Epistemic.Action.Declaration
import Epistemic.Catalog
import Epistemic.Convert
import Epistemic.Declaration.Hierarchy
import Epistemic.Declaration.Literal
import Epistemic.Declaration.Predicate
import Epistemic.Draft
import Epistemic.Effect.Guard
import Epistemic.Effect.Quantified
import Epistemic.Effect.Reading
import Epistemic.Effect.Tidy
import Epistemic.Fault
import Epistemic.Grounding.Action
import Epistemic.Grounding.Instances
import Epistemic.Grounding.Substitution
import Epistemic.MAp.Action
import Epistemic.MAp.Conditions
import Epistemic.MAp.Document
import Epistemic.MAp.Fluents
import Epistemic.MAp.Formula
import Epistemic.Main
import Epistemic.Pdkb.Action
import Epistemic.Pdkb.Conditions
import Epistemic.Pdkb.Document
import Epistemic.Pdkb.Formula
import Epistemic.Sample.Action
import Epistemic.Sample.Task
import Epistemic.Sample.Workload
import Epistemic.Session
import Epistemic.Sheet
import Epistemic.Source.Nesting
import Epistemic.Source.Replacement
import Epistemic.Source.Rules
import Epistemic.Source.Scan
import Epistemic.Source.Token
import Epistemic.Task.Basic
import Epistemic.Task.Domain
import Epistemic.Task.Problem
import Epistemic.Text.Blank
import Epistemic.Text.CaseTable
import Epistemic.Text.Lower
import Epistemic.Text.Name
import Epistemic.Text.NameTable
import Epistemic.Text.Numeral
import Epistemic.Text.Part
import Epistemic.Text.PrintableTable
import Epistemic.Text.Quoted
import Epistemic.Text.Span
import Epistemic.Text.Template
import Epistemic.Tree
import Epistemic.Work
import Epistemic.Proofs.Places
import Epistemic.Proofs.Replacement
import Epistemic.Proofs.Rules
import Epistemic.Proofs.Operators
import Epistemic.Proofs.Parentheses
import Epistemic.Proofs.Rendering
import Epistemic.Proofs.Writing
import Epistemic.Proofs.Goals
import Epistemic.Proofs.Forms
import Epistemic.Proofs.Rounds
import Epistemic.Proofs.Signs
import Epistemic.Proofs.Glyphs
import Epistemic.Proofs.GlyphSigns
import Epistemic.Proofs.GlyphTrees
import Epistemic.Proofs.DirectReading
import Epistemic.Proofs.Subtypes
import Epistemic.Proofs.Parsed
import Epistemic.Proofs.GroundActions
import Epistemic.Proofs.DeclaredFluents
import Epistemic.Proofs.Documents
import Epistemic.Proofs.InitialTruth
import Epistemic.Proofs.UsedFluents
import Epistemic.Proofs.OperatorText
import Epistemic.Proofs.Filling
import Epistemic.Proofs.GuardCopies
import Epistemic.Proofs.Closure
import Epistemic.Proofs.Statements
import Epistemic.Proofs.Conditions
import Epistemic.Proofs.EffectNesting
import Epistemic.Proofs.Layout
import Epistemic.Proofs.Filing
import Epistemic.Proofs.Declarations
import Epistemic.Proofs.OperatorAgents
import Epistemic.Proofs.LevelGroups
import Epistemic.Proofs.GroupLookup
import Epistemic.Proofs.GroupEntries
import Epistemic.Proofs.ReadGuards
import Epistemic.Proofs.ClearedGuards
import Epistemic.Proofs.Characters
import Epistemic.Proofs.AlikeGuards
import Epistemic.Proofs.PrintingOrder
import Epistemic.Proofs.EffectReading
import Epistemic.Proofs.GuardMeaning
import Epistemic.Proofs.Exchanges
import Epistemic.Proofs.FilledWords
import Epistemic.Proofs.TypeInstances
import Epistemic.Proofs.GroundTuples
import Epistemic.Proofs.TrueFluents
import Epistemic.Proofs.GroupOperators
import Epistemic.Proofs.EnclosedFormulas
import Epistemic.Proofs.Phrases
import Epistemic.Proofs.FormulaNames
import Epistemic.Proofs.GroundPhrases
import Epistemic.Proofs.MarkedPhrases
import Epistemic.Proofs.Demands
import Epistemic.Proofs.QuantifiedClauses
import Epistemic.Proofs.ExcludedAgents
import Epistemic.Proofs.RenamedVariables
import Epistemic.Proofs.NegatedBeliefs
import Epistemic.Proofs.ConditionGroups
import Epistemic.Proofs.Spelling
import Epistemic.Proofs.MarkedTexts
import Epistemic.Proofs.Derivations
import Epistemic.Proofs.Supertypes
import Epistemic.Proofs.InitialBeliefs
import Epistemic.Proofs.QuantifiedGroups
import Epistemic.Proofs.PredicateInstances
import Epistemic.Proofs.IfClauses
import Epistemic.Proofs.Spacing
import Epistemic.Proofs.Brackets
import Epistemic.Proofs.Inclusion
import Epistemic.Proofs.Exhaustion
import Epistemic.Proofs.Listings
import Epistemic.Proofs.Letters
import Epistemic.Proofs.Markers
