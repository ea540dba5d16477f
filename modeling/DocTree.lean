import DocTree.Action.Rule
import DocTree.Codec.Encode
import DocTree.Codec.Input
import DocTree.Command.Run
import DocTree.Filter.Build
import DocTree.Json.Writer
import DocTree.Log.Level
import DocTree.Main
import DocTree.Node.Equality
import DocTree.Outline.Branches
import DocTree.Pipe
import DocTree.Recipe.Contents
import DocTree.Recipe.Flatten
import DocTree.Proofs.Codec.Text
import DocTree.Proofs.Filter.Idle
import DocTree.Proofs.Walk.Rewriting
import DocTree.Proofs.Number.Digits
import DocTree.Proofs.Number.Shortest
import DocTree.Proofs.Json.Numbers
import DocTree.Proofs.Json.Strings
import DocTree.Proofs.Json.RoundTrip
import DocTree.Proofs.Text.Utf8
import DocTree.Proofs.Json.Scalars
import DocTree.Proofs.Codec.Normal
import DocTree.Proofs.Filter.InTurn
import DocTree.Proofs.Codec.Leaks
import DocTree.Proofs.Command.AsPipe
import DocTree.Proofs.Command.Untouched
import DocTree.Proofs.Filter.Encodable
import DocTree.Proofs.Codec.Tags
import DocTree.Proofs.Codec.Spoilt
import DocTree.Proofs.Walk.Selecting
import DocTree.Proofs.Filter.Deletion
import DocTree.Proofs.Recipe.Emphasis
import DocTree.Proofs.Recipe.Flattening
import DocTree.Proofs.Walk.Agreement
import DocTree.Proofs.Walk.Keeping
import DocTree.Proofs.Walk.Keys
import DocTree.Proofs.Walk.Progress
import DocTree.Proofs.Filter.Metadata
import DocTree.Proofs.Version.Order
import DocTree.Proofs.Version.Printed
import DocTree.Proofs.Codec.Refusals
import DocTree.Proofs.Codec.Gate
import DocTree.Proofs.Walk.TextParts
import DocTree.Proofs.Outline.Drawn
import DocTree.Proofs.Text.Bare
import DocTree.Proofs.Text.Lines
import DocTree.Proofs.Outline.Lines
import DocTree.Proofs.Filter.Arguments
import DocTree.Proofs.Json.Equality
import DocTree.Proofs.Codec.Held
import DocTree.Proofs.Codec.Equality
import DocTree.Proofs.Node.Equality
import DocTree.Proofs.Store.Positions
import DocTree.Proofs.Json.Pieces
import DocTree.Proofs.Json.Compact
import DocTree.Proofs.Pipe.OneLine
