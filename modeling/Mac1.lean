import Mac1.Text
import Mac1.Text.Upper
import Mac1.Instruction
import Mac1.Source
import Mac1.Assembly.Diagnostic
import Mac1.Assembly.SymbolTable
import Mac1.Assembly.Program
import Mac1.Memory
import Mac1.Workbench
import Mac1.Shell.Disk
import Mac1.Shell.Session
import Mac1.Shell.Console
import Mac1.Main
import Mac1.Proofs.Numeral
import Mac1.Proofs.Text
import Mac1.Proofs.Word
import Mac1.Proofs.Source
import Mac1.Proofs.SymbolTable
import Mac1.Proofs.Encoding
import Mac1.Proofs.Outcome
import Mac1.Proofs.Addresses
import Mac1.Proofs.Load
import Mac1.Proofs.Listing
import Mac1.Proofs.Loading
import Mac1.Proofs.Refinement
import Mac1.Proofs.Disassembly
import Mac1.Proofs.Image
import Mac1.Proofs.Strict
import Mac1.Proofs.Decoding
import Mac1.Proofs.Positions
import Mac1.Proofs.Store
import Mac1.Proofs.Appending
import Mac1.Proofs.Correspondence
import Mac1.Proofs.Interleaving
import Mac1.Proofs.Renaming
import Mac1.Proofs.Layout
import Mac1.Proofs.Files
import Mac1.Proofs.Session
import Mac1.Proofs.Effects
import Mac1.Proofs.Lossless
import Mac1.Proofs.Overflow
import Mac1.Proofs.Partition
import Mac1.Proofs.Contents
import Mac1.Proofs.Spelling
import Mac1.Proofs.WordField
import Mac1.Proofs.Tables
