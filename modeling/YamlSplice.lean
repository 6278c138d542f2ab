import YamlSplice.Calendar
import YamlSplice.Decimal.Nearest
import YamlSplice.Decimal.Notation
import YamlSplice.Decimal.Numeral
import YamlSplice.Decimal.Shortest
import YamlSplice.Edit.Failure
import YamlSplice.Edit.Margin
import YamlSplice.Edit.Region
import YamlSplice.Edit.Render
import YamlSplice.Edit.Run
import YamlSplice.Edit.Settings
import YamlSplice.Edit.Stream.Basic
import YamlSplice.Edit.Stream.Update
import YamlSplice.Edit.Update
import YamlSplice.Json.Decode
import YamlSplice.Json.Fault
import YamlSplice.Operations
import YamlSplice.Proofs.Edit.Frame
import YamlSplice.Proofs.Edit.Indent
import YamlSplice.Proofs.Edit.Layout
import YamlSplice.Proofs.Edit.Match
import YamlSplice.Proofs.Edit.Merge
import YamlSplice.Proofs.Edit.Move
import YamlSplice.Proofs.Edit.OneKey
import YamlSplice.Proofs.Edit.Outcome
import YamlSplice.Proofs.Edit.Recognize
import YamlSplice.Proofs.Edit.Refine
import YamlSplice.Proofs.Edit.Repeat
import YamlSplice.Proofs.Edit.Rows
import YamlSplice.Proofs.Edit.Sections
import YamlSplice.Proofs.Reading.KeyWord
import YamlSplice.Proofs.Reading.Layout
import YamlSplice.Proofs.Reading.Rows
import YamlSplice.Proofs.Region.Cut
import YamlSplice.Proofs.Region.Locate
import YamlSplice.Proofs.Region.Scan
import YamlSplice.Proofs.Region.Commute
import YamlSplice.Proofs.Value.Accord
import YamlSplice.Proofs.Value.Entries
import YamlSplice.Proofs.Writing.Block
import YamlSplice.Proofs.Writing.Marks
import YamlSplice.Proofs.Writing.Page
import YamlSplice.Proofs.Writing.Row
import YamlSplice.Proofs.Yaml.Build
import YamlSplice.Proofs.Yaml.Cursor
import YamlSplice.Proofs.Yaml.Fill
import YamlSplice.Proofs.Yaml.Lexer
import YamlSplice.Proofs.Yaml.Lines
import YamlSplice.Proofs.Yaml.Plain
import YamlSplice.Proofs.Yaml.Numeral
import YamlSplice.Proofs.Yaml.Spelling
import YamlSplice.Proofs.Yaml.Unfold
import YamlSplice.Text.Base64
import YamlSplice.Text.Basic
import YamlSplice.Text.Blank
import YamlSplice.Text.Digit
import YamlSplice.Text.Printable
import YamlSplice.Text.Quoted
import YamlSplice.Value.Agreement
import YamlSplice.Value.Basic
import YamlSplice.Value.Display
import YamlSplice.Value.Equality
import YamlSplice.Yaml.Character
import YamlSplice.Yaml.Cursor
import YamlSplice.Yaml.Fault
import YamlSplice.Yaml.Graph.Basic
import YamlSplice.Yaml.Graph.Build
import YamlSplice.Yaml.Graph.Merge
import YamlSplice.Yaml.Graph.Value
import YamlSplice.Yaml.Outline
import YamlSplice.Yaml.Page.Basic
import YamlSplice.Yaml.Page.Scalar
import YamlSplice.Yaml.Scalar
import YamlSplice.Yaml.Style
import YamlSplice.Yaml.Tag
import YamlSplice.Yaml.Token.Basic
import YamlSplice.Yaml.Token.Block
import YamlSplice.Yaml.Token.Lexer
import YamlSplice.Yaml.Token.Name
import YamlSplice.Yaml.Token.Plain
import YamlSplice.Yaml.Token.Quoted
import YamlSplice.Yaml.Write
import YamlSplice.Proofs.Stream.Split
import YamlSplice.Proofs.Edit.Own
import YamlSplice.Proofs.Edit.Closed
import YamlSplice.Proofs.Stream.Turns
import YamlSplice.Proofs.Stream.Single
import YamlSplice.Proofs.Stream.Every
import YamlSplice.Proofs.Edit.Nested
import YamlSplice.Proofs.Edit.Paths
import YamlSplice.Proofs.Edit.Below
import YamlSplice.Proofs.Edit.Deep
import YamlSplice.Proofs.Region.Lens
import YamlSplice.Proofs.Stream.Unreadable
import YamlSplice.Proofs.Edit.Append
import YamlSplice.Proofs.Edit.Unit
import YamlSplice.Proofs.Edit.Level
import YamlSplice.Proofs.Stream.NewKey
