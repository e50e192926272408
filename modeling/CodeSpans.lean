import CodeSpans.Bytes.Noise
import CodeSpans.Elf.Image
import CodeSpans.Embedding
import CodeSpans.Main
import CodeSpans.Request
import CodeSpans.Proofs.X86.Encoding
import CodeSpans.Proofs.X86.Reading
import CodeSpans.Proofs.X86.Stages
import CodeSpans.Proofs.X86.Window
import CodeSpans.Proofs.Sweep.Walk
import CodeSpans.Proofs.X86.Acceptance
import CodeSpans.Proofs.X86.Locality
import CodeSpans.Proofs.Answer
import CodeSpans.Proofs.Elf.Table
import CodeSpans.Proofs.Sweep.Sections
import CodeSpans.Proofs.Sweep.Tiling
import CodeSpans.Proofs.Sweep.Resumption
import CodeSpans.Proofs.Bytes.LittleEndian
import CodeSpans.Proofs.Elf.Stored
import CodeSpans.Proofs.Elf.HeaderReading
import CodeSpans.Proofs.Elf.Indexing
import CodeSpans.Proofs.Elf.WordArithmetic
import CodeSpans.Proofs.Elf.Acceptance
import CodeSpans.Proofs.Sweep.Schedules
import CodeSpans.Proofs.Sweep.Parallel
import CodeSpans.Proofs.Bytes.Agreement
import CodeSpans.Proofs.Elf.Untouched
import CodeSpans.Proofs.Sweep.Isolation
import CodeSpans.Proofs.Text.Utf8
import CodeSpans.Proofs.Elf.Layout
import CodeSpans.Proofs.Elf.Names
import CodeSpans.Proofs.Elf.RoundTrip
import CodeSpans.Proofs.Sweep.BuiltImages
import CodeSpans.Proofs.X86.Truncation
import CodeSpans.Proofs.X86.Rules
import CodeSpans.Proofs.X86.Demands
import CodeSpans.Proofs.Machine.Fault
import CodeSpans.Proofs.Machine.Indexing
import CodeSpans.Proofs.Machine.Decoding
import CodeSpans.Proofs.Machine.Sweeping
import CodeSpans.Proofs.Text.CsvReader
import CodeSpans.Proofs.Text.Digits
import CodeSpans.Proofs.Text.JsonReader
import CodeSpans.Proofs.Text.Lines
import CodeSpans.Proofs.Report.Blocks
import CodeSpans.Proofs.Report.PlainTextReader
import CodeSpans.Proofs.Report.JsonTextReader
import CodeSpans.Proofs.Report.CsvTextReader
import CodeSpans.Proofs.Report.Reporting
import CodeSpans.Proofs.X86.Limit
import CodeSpans.Proofs.X86.PrefixMeaning
import CodeSpans.Proofs.Elf.Resolution
import CodeSpans.Proofs.Elf.Overwriting
import CodeSpans.Proofs.Elf.HeaderReach
import CodeSpans.Proofs.Elf.Numbering
import CodeSpans.Proofs.Report.CsvRecords
import CodeSpans.Proofs.Report.JsonRecords
import CodeSpans.Proofs.Bytes.Nesting
import CodeSpans.Proofs.Machine.Nesting
import CodeSpans.Proofs.Sweep.Calls
import CodeSpans.Proofs.Report.Concatenation
import CodeSpans.Proofs.CommandLine.OneSection
