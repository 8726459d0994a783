import ReactiveView.Text.Blank
import ReactiveView.Text.Letter
import ReactiveView.Text.Numeral
import ReactiveView.Text.Reader
import ReactiveView.Number.Layout
import ReactiveView.Error
import ReactiveView.Entries
import ReactiveView.Path
import ReactiveView.Value.Order
import ReactiveView.Value.Json
import ReactiveView.Expression.Reader
import ReactiveView.Expression.Scope
import ReactiveView.Markup.Fragment
import ReactiveView.Markup.Reference
import ReactiveView.Markup.Tree
import ReactiveView.Forest
import ReactiveView.Selector
import ReactiveView.Surface.Edit
import ReactiveView.Graph.Growth
import ReactiveView.Template.Repeat
import ReactiveView.Template.Substitution
import ReactiveView.Cascade
import ReactiveView.Page.Program
import ReactiveView.Page.Interpreter
import ReactiveView.Demo
import ReactiveView.Main
import ReactiveView.Proofs.Expression.Grammar
import ReactiveView.Proofs.Markup.Escape
import ReactiveView.Proofs.Markup.Merge
import ReactiveView.Proofs.Markup.RoundTrip
import ReactiveView.Proofs.Forest.Links
import ReactiveView.Proofs.Surface.Sound
import ReactiveView.Proofs.Surface.WellFormed
import ReactiveView.Proofs.Surface.Shows
import ReactiveView.Proofs.Value.Write
import ReactiveView.Proofs.Graph.Shape
import ReactiveView.Proofs.Graph.Walk
import ReactiveView.Proofs.Graph.Growing
import ReactiveView.Proofs.Run.Tracks
import ReactiveView.Proofs.Page.Change
import ReactiveView.Proofs.Page.Policy
import ReactiveView.Proofs.Cascade.Order
import ReactiveView.Proofs.Page.Coverage
import ReactiveView.Proofs.Page.Named
import ReactiveView.Proofs.Page.Coherence
import ReactiveView.Proofs.Page.Bound
import ReactiveView.Proofs.Expression.Evaluation
import ReactiveView.Proofs.Template.Substitution
import ReactiveView.Proofs.Cascade.Trace
import ReactiveView.Proofs.Page.Topology
import ReactiveView.Proofs.Page.Observation
import ReactiveView.Proofs.Value.Members
import ReactiveView.Proofs.Value.Lens
import ReactiveView.Proofs.Graph.Mirror
import ReactiveView.Proofs.Page.Spelling
import ReactiveView.Proofs.Template.Repeat
import ReactiveView.Proofs.Surface.Lists
import ReactiveView.Proofs.Surface.Retouched
import ReactiveView.Proofs.Page.Item
import ReactiveView.Proofs.Page.Expansion
import ReactiveView.Proofs.Page.Fields
import ReactiveView.Proofs.Page.Elements
import ReactiveView.Proofs.Graph.Regrowth
import ReactiveView.Proofs.Template.Interpolation
import ReactiveView.Proofs.Surface.Coupling
import ReactiveView.Proofs.Page.InPlace
import ReactiveView.Proofs.Page.Coupled
import ReactiveView.Proofs.Page.TwoWay
import ReactiveView.Proofs.Graph.Top
import ReactiveView.Proofs.Surface.Canonical
import ReactiveView.Proofs.Page.Reading
import ReactiveView.Proofs.Page.Handed
import ReactiveView.Proofs.Markup.Writable
import ReactiveView.Proofs.Page.Accessors
import ReactiveView.Proofs.Surface.Loading
import ReactiveView.Proofs.Page.Unshadowed
import ReactiveView.Proofs.Cascade.Kept
import ReactiveView.Proofs.Page.Sparing
import ReactiveView.Proofs.Page.Setting
import ReactiveView.Proofs.Expression.Faults
import ReactiveView.Proofs.Value.Refused
import ReactiveView.Proofs.Forest.Siblings
import ReactiveView.Proofs.Graph.Lineage
import ReactiveView.Proofs.Page.ReadBack
import ReactiveView.Proofs.Forest.Order
import ReactiveView.Proofs.Surface.Queries
import ReactiveView.Proofs.Surface.Texts
import ReactiveView.Proofs.Surface.Contents
import ReactiveView.Proofs.Surface.Refused
import ReactiveView.Proofs.Page.WriteBack
import ReactiveView.Proofs.Template.Clause
import ReactiveView.Proofs.Template.Nested
import ReactiveView.Proofs.Template.Reworded
import ReactiveView.Proofs.Text.Trim
import ReactiveView.Proofs.Template.Copied
import ReactiveView.Proofs.Surface.Standing
import ReactiveView.Proofs.Page.Directives
import ReactiveView.Proofs.Page.Tour
import ReactiveView.Proofs.Page.Traversal
import ReactiveView.Proofs.Page.Unstarted
import ReactiveView.Proofs.Entries.History
import ReactiveView.Proofs.Number.ReadBack
import ReactiveView.Proofs.Value.Unambiguous
import ReactiveView.Proofs.Value.Serialized
import ReactiveView.Proofs.Selector.Matching
import ReactiveView.Proofs.Selector.Faults
import ReactiveView.Proofs.Expression.Paths
import ReactiveView.Proofs.Value.Comparison
import ReactiveView.Proofs.Markup.Decoding
import ReactiveView.Proofs.Template.Heads
