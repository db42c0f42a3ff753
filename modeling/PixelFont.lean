import PixelFont.Batch
import PixelFont.Bdf
import PixelFont.Bdf.Line
import PixelFont.BigEndian
import PixelFont.Bitmap
import PixelFont.Catalogue
import PixelFont.CharCode
import PixelFont.Check
import PixelFont.Command
import PixelFont.Compilation
import PixelFont.Failure
import PixelFont.FieldName
import PixelFont.FileTree
import PixelFont.Font
import PixelFont.FontView
import PixelFont.GeneratedCode
import PixelFont.Glyph
import PixelFont.GlyphView
import PixelFont.GlyphWalk
import PixelFont.IntFormat
import PixelFont.JsonForm
import PixelFont.JsonValue
import PixelFont.JsonValue.Reader
import PixelFont.Main
import PixelFont.OffsetTable
import PixelFont.Path
import PixelFont.Proofs.ArrayName
import PixelFont.Proofs.Batch
import PixelFont.Proofs.Bdf.Acceptance
import PixelFont.Proofs.Bdf.FirstFault
import PixelFont.Proofs.Bdf.Grammar
import PixelFont.Proofs.Bdf.Layout
import PixelFont.Proofs.Bdf.Line
import PixelFont.Proofs.Bdf.Printed
import PixelFont.Proofs.Bdf.Rows
import PixelFont.Proofs.Bdf.Run
import PixelFont.Proofs.Bdf.Step
import PixelFont.Proofs.BigEndian
import PixelFont.Proofs.Bitmap
import PixelFont.Proofs.Canonical
import PixelFont.Proofs.CharCode
import PixelFont.Proofs.Check
import PixelFont.Proofs.CompileOrder
import PixelFont.Proofs.Cpp.Declaration
import PixelFont.Proofs.Cpp.Token
import PixelFont.Proofs.Damage
import PixelFont.Proofs.ErrorSpan
import PixelFont.Proofs.Font
import PixelFont.Proofs.FontView
import PixelFont.Proofs.GeneratedCode
import PixelFont.Proofs.GeneratedCode.Array
import PixelFont.Proofs.GeneratedCode.Comment
import PixelFont.Proofs.GeneratedCode.Define
import PixelFont.Proofs.GeneratedCode.Frame
import PixelFont.Proofs.GeneratedCode.Identifier
import PixelFont.Proofs.Glyph
import PixelFont.Proofs.GlyphView
import PixelFont.Proofs.GlyphWalk
import PixelFont.Proofs.Hex
import PixelFont.Proofs.IntFormat
import PixelFont.Proofs.JsonForm
import PixelFont.Proofs.JsonText
import PixelFont.Proofs.JsonValue.Atom
import PixelFont.Proofs.JsonValue.Layout
import PixelFont.Proofs.JsonValue.Printed
import PixelFont.Proofs.LookUp
import PixelFont.Proofs.Machine.Codec
import PixelFont.Proofs.Machine.Cut
import PixelFont.Proofs.Machine.Field
import PixelFont.Proofs.Machine.Glyph
import PixelFont.Proofs.Machine.Reading
import PixelFont.Proofs.Machine.Word
import PixelFont.Proofs.OffsetTable
import PixelFont.Proofs.Payload
import PixelFont.Proofs.Pixels
import PixelFont.Proofs.Placeholder
import PixelFont.Proofs.Record.Fields
import PixelFont.Proofs.Record.Nesting
import PixelFont.Proofs.Record.Position
import PixelFont.Proofs.Record.ReadBack
import PixelFont.Proofs.Record.Transcript
import PixelFont.Proofs.Recording
import PixelFont.Proofs.RoundTrip
import PixelFont.Proofs.SharedTable
import PixelFont.Proofs.Source
import PixelFont.Proofs.Survey
import PixelFont.Proofs.Text.Lines
import PixelFont.Proofs.Text.Numeral
import PixelFont.Proofs.Text.Words
import PixelFont.Proofs.Tiling
import PixelFont.Proofs.Truncation
import PixelFont.Proofs.Unchecked
import PixelFont.Proofs.View
import PixelFont.Proofs.Violations
import PixelFont.Record.Buffer
import PixelFont.Record.Plan
import PixelFont.Text
import PixelFont.Text.Quoted
import PixelFont.TomlValue
import PixelFont.TomlValue.Reader
import PixelFont.View
