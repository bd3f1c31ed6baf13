import PackedMovie.Abc.Assembly
import PackedMovie.Abc.Classes
import PackedMovie.Abc.Constants
import PackedMovie.Abc.Error
import PackedMovie.Abc.Field
import PackedMovie.Abc.Members
import PackedMovie.Abc.Methods
import PackedMovie.Abc.Program
import PackedMovie.Bytes.Base128
import PackedMovie.Bytes.Double
import PackedMovie.Bytes.LittleEndian
import PackedMovie.Bytes.Reader
import PackedMovie.Code.Assembler
import PackedMovie.Code.Instruction
import PackedMovie.Code.Opcode
import PackedMovie.Command.Arguments
import PackedMovie.Command.Failure
import PackedMovie.Command.Host
import PackedMovie.Command.Preferences
import PackedMovie.Command.Run
import PackedMovie.Command.Session
import PackedMovie.Dictionary
import PackedMovie.Json.Parse
import PackedMovie.Json.Value
import PackedMovie.Main
import PackedMovie.Proofs.Abc.Accounting
import PackedMovie.Proofs.Abc.Additions
import PackedMovie.Proofs.Abc.Assembly
import PackedMovie.Proofs.Abc.Attempts
import PackedMovie.Proofs.Abc.BodyRecords
import PackedMovie.Proofs.Abc.Counts
import PackedMovie.Proofs.Abc.FieldStreams
import PackedMovie.Proofs.Abc.Fields
import PackedMovie.Proofs.Abc.Integers
import PackedMovie.Proofs.Abc.Reencoding
import PackedMovie.Proofs.Abc.Relocation
import PackedMovie.Proofs.Abc.RoundTrip
import PackedMovie.Proofs.Abc.Shrinking
import PackedMovie.Proofs.Abc.Truncation
import PackedMovie.Proofs.Abc.WellFormed
import PackedMovie.Proofs.Bytes.Base128
import PackedMovie.Proofs.Bytes.Exact
import PackedMovie.Proofs.Bytes.Local
import PackedMovie.Proofs.Code.Assembly
import PackedMovie.Proofs.Code.Decoding
import PackedMovie.Proofs.Code.Operands
import PackedMovie.Proofs.Code.Tiling
import PackedMovie.Proofs.Command.CommandLine
import PackedMovie.Proofs.Command.Running
import PackedMovie.Proofs.Command.Settings
import PackedMovie.Proofs.Command.Words
import PackedMovie.Proofs.Dictionary
import PackedMovie.Proofs.History
import PackedMovie.Proofs.Resource.AccessorTable
import PackedMovie.Proofs.Resource.Alphabet
import PackedMovie.Proofs.Resource.Calls
import PackedMovie.Proofs.Resource.Coverage
import PackedMovie.Proofs.Resource.Matching
import PackedMovie.Proofs.Resource.Names
import PackedMovie.Proofs.Resource.Noise
import PackedMovie.Proofs.Resource.OperandUse
import PackedMovie.Proofs.Resource.Packing
import PackedMovie.Proofs.Resource.Payloads
import PackedMovie.Proofs.Resource.Places
import PackedMovie.Proofs.Resource.Progress
import PackedMovie.Proofs.Resource.Questions
import PackedMovie.Proofs.Resource.Resolution
import PackedMovie.Proofs.Resource.Runs
import PackedMovie.Proofs.Resource.Spelling
import PackedMovie.Proofs.Resource.Strictness
import PackedMovie.Proofs.Resource.Unpacking
import PackedMovie.Proofs.Swf.Assembly
import PackedMovie.Proofs.Swf.Bits
import PackedMovie.Proofs.Swf.Contents
import PackedMovie.Proofs.Swf.FrameSize
import PackedMovie.Proofs.Swf.Framing
import PackedMovie.Proofs.Swf.Header
import PackedMovie.Proofs.Swf.Relabelling
import PackedMovie.Proofs.Swf.Split
import PackedMovie.Proofs.Swf.SymbolCount
import PackedMovie.Proofs.Swf.TagData
import PackedMovie.Proofs.Swf.Tags
import PackedMovie.Proofs.Text.Utf8
import PackedMovie.Proofs.Zlib.Stored
import PackedMovie.Report.Decimal
import PackedMovie.Report.Measure
import PackedMovie.Resource.Accessors
import PackedMovie.Resource.Chain
import PackedMovie.Resource.Error
import PackedMovie.Resource.Keymap
import PackedMovie.Resource.Options
import PackedMovie.Resource.Order
import PackedMovie.Resource.Unpacking
import PackedMovie.Resource.Walker
import PackedMovie.Storage.FileTree
import PackedMovie.Storage.Input
import PackedMovie.Storage.Sink
import PackedMovie.Storage.SystemError
import PackedMovie.Swf.Assembly
import PackedMovie.Swf.Bits
import PackedMovie.Swf.Compression
import PackedMovie.Swf.Error
import PackedMovie.Swf.Header
import PackedMovie.Swf.Movie
import PackedMovie.Swf.Rectangle
import PackedMovie.Swf.Tag
import PackedMovie.Text.Numeral
import PackedMovie.Text.Utf8
import PackedMovie.Toml.Document
import PackedMovie.Toml.Item
import PackedMovie.Toml.Lexical
import PackedMovie.Toml.Moment
import PackedMovie.Toml.Number
import PackedMovie.Zlib.BitSource
import PackedMovie.Zlib.Codec
import PackedMovie.Zlib.Container
import PackedMovie.Zlib.Huffman
import PackedMovie.Zlib.Inflate
import PackedMovie.Proofs.Swf.BitFields
import PackedMovie.Proofs.Abc.Interning
