import Isaforge.Call
import Isaforge.Catalog
import Isaforge.Catalog.Growing
import Isaforge.CommandLine.Arguments
import Isaforge.CommandLine.Report
import Isaforge.CommandLine.Tool
import Isaforge.Error
import Isaforge.Expr
import Isaforge.Fresh
import Isaforge.Generation
import Isaforge.Instruction
import Isaforge.Legalizer.Arm
import Isaforge.Legalizer.Pass
import Isaforge.Legalizer.Statement
import Isaforge.Main
import Isaforge.Operand
import Isaforge.Pattern
import Isaforge.Pattern.Growing
import Isaforge.Proofs.Appearance
import Isaforge.Proofs.Binding
import Isaforge.Proofs.CamelCase
import Isaforge.Proofs.Catalog
import Isaforge.Proofs.Characters
import Isaforge.Proofs.Classification
import Isaforge.Proofs.Construction
import Isaforge.Proofs.Diagnosis
import Isaforge.Proofs.Documentation
import Isaforge.Proofs.Emission
import Isaforge.Proofs.Evaluation
import Isaforge.Proofs.Exchange
import Isaforge.Proofs.Flattening
import Isaforge.Proofs.FreshNames
import Isaforge.Proofs.Generation
import Isaforge.Proofs.Identities
import Isaforge.Proofs.Inputs
import Isaforge.Proofs.Lanes
import Isaforge.Proofs.Legalizer.Arm
import Isaforge.Proofs.Legalizer.Blocks
import Isaforge.Proofs.Legalizer.Calls
import Isaforge.Proofs.Legalizer.Capture
import Isaforge.Proofs.Legalizer.ControllingType
import Isaforge.Proofs.Legalizer.Definitions
import Isaforge.Proofs.Legalizer.Dispatch
import Isaforge.Proofs.Legalizer.HoistedNames
import Isaforge.Proofs.Legalizer.Lines
import Isaforge.Proofs.Legalizer.Machine
import Isaforge.Proofs.Legalizer.Names
import Isaforge.Proofs.Legalizer.Nesting
import Isaforge.Proofs.Legalizer.Opcodes
import Isaforge.Proofs.Legalizer.Opening
import Isaforge.Proofs.Legalizer.Operands
import Isaforge.Proofs.Legalizer.Pass
import Isaforge.Proofs.Legalizer.Reading
import Isaforge.Proofs.Legalizer.Refusal
import Isaforge.Proofs.Legalizer.Renaming
import Isaforge.Proofs.Legalizer.ResultCounts
import Isaforge.Proofs.Legalizer.Results
import Isaforge.Proofs.Legalizer.Scope
import Isaforge.Proofs.Legalizer.Unnesting
import Isaforge.Proofs.NameTable
import Isaforge.Proofs.Nesting
import Isaforge.Proofs.Occurrence
import Isaforge.Proofs.Outcome
import Isaforge.Proofs.Page
import Isaforge.Proofs.Pushing
import Isaforge.Proofs.Reading
import Isaforge.Proofs.Registry
import Isaforge.Proofs.Renaming
import Isaforge.Proofs.Rendering
import Isaforge.Proofs.Repetition
import Isaforge.Proofs.Restoring
import Isaforge.Proofs.Settings.Arrangement
import Isaforge.Proofs.Settings.Declarations
import Isaforge.Proofs.Settings.Defaults
import Isaforge.Proofs.Settings.Getters
import Isaforge.Proofs.Settings.Images
import Isaforge.Proofs.Settings.Layout
import Isaforge.Proofs.Settings.Names
import Isaforge.Proofs.Settings.Nesting
import Isaforge.Proofs.Settings.Source
import Isaforge.Proofs.Settings.Storage
import Isaforge.Proofs.Shared.Growth
import Isaforge.Proofs.Shared.Halves
import Isaforge.Proofs.Shared.Meaning
import Isaforge.Proofs.Shared.Outline
import Isaforge.Proofs.Shared.Preservation
import Isaforge.Proofs.Shared.Validity
import Isaforge.Proofs.Signatures
import Isaforge.Proofs.Spelling
import Isaforge.Proofs.Storage.FileSystem
import Isaforge.Proofs.Storage.Path
import Isaforge.Proofs.TypeVariables
import Isaforge.Proofs.Unnesting
import Isaforge.Proofs.WellScoped
import Isaforge.Repetition
import Isaforge.Role
import Isaforge.Rule
import Isaforge.Settings.Flags
import Isaforge.Settings.Layout
import Isaforge.Shared.Definitions
import Isaforge.Shared.Instructions
import Isaforge.Shared.Legalization
import Isaforge.Source.Code
import Isaforge.Source.Page
import Isaforge.Statistics
import Isaforge.Storage.FileSystem
import Isaforge.Storage.Path
import Isaforge.Target
import Isaforge.Text.Blank
import Isaforge.Text.CamelCase
import Isaforge.Text.Capital
import Isaforge.Text.Decimal
import Isaforge.TypeSet
import Isaforge.ValueType
