import StyleTree.Rule.Outline
import StyleTree.Sheet.Shared
import StyleTree.Proofs.Arena.Ancestry
import StyleTree.Proofs.Rule.Planting
import StyleTree.Proofs.Sheet.Lock
import StyleTree.Proofs.Sheet.Text
import StyleTree.Proofs.Sheet.Changes
import StyleTree.Proofs.Sheet.Protocol
import StyleTree.Proofs.Namespaces
import StyleTree.Proofs.Sheet.Renewal
import StyleTree.Proofs.Sheet.Namespaces
import StyleTree.Proofs.Rule.Prefixes
import StyleTree.Proofs.Sheet.Prefixes
import StyleTree.Proofs.Sheet.Order
import StyleTree.Proofs.Sheet.Appending
import StyleTree.Proofs.Sheet.Nesting
import StyleTree.Proofs.Rule.Declarations
import StyleTree.Proofs.Sheet.Weeding
import StyleTree.Proofs.Sheet.Children
import StyleTree.Proofs.Sheet.Declarations
import StyleTree.Proofs.Rule.Interleaving
import StyleTree.Proofs.Rule.Legible
import StyleTree.Proofs.Rule.Openings
import StyleTree.Proofs.Rule.Contents
import StyleTree.Proofs.Rule.Rereading
import StyleTree.Proofs.Sheet.Rereading
import StyleTree.Proofs.Sheet.Validation
import StyleTree.Proofs.Rule.Groups
import StyleTree.Proofs.Sheet.Groups
import StyleTree.Proofs.Sheet.Splices
import StyleTree.Proofs.Declaration.Maps
import StyleTree.Proofs.Declaration.Combinators
import StyleTree.Proofs.Sheet.Margins
import StyleTree.Proofs.Sheet.Features
import StyleTree.Proofs.Selector.Nth
import StyleTree.Proofs.Selector.Concealed
import StyleTree.Proofs.Selector.RoundTrip
import StyleTree.Proofs.Selector.Arguments
import StyleTree.Proofs.ComponentValue.RoundTrip
import StyleTree.Proofs.Feature.Text
import StyleTree.Proofs.Sheet.Detaching
import StyleTree.Proofs.Condition.Text
import StyleTree.Proofs.Condition.Editing
import StyleTree.Proofs.Sheet.Preludes
import StyleTree.Proofs.Sheet.Keyframes
import StyleTree.Proofs.Cursor.Sequences
