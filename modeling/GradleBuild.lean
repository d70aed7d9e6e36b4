import GradleBuild.Build
import GradleBuild.Config.Basic
import GradleBuild.Config.Decode
import GradleBuild.Config.Environment
import GradleBuild.Config.Key
import GradleBuild.Config.Layout
import GradleBuild.Config.Load
import GradleBuild.Config.Loader
import GradleBuild.Config.Problem
import GradleBuild.Config.Value
import GradleBuild.Config.Written
import GradleBuild.Document
import GradleBuild.Error
import GradleBuild.Files.Copy
import GradleBuild.Files.Create
import GradleBuild.Files.Fault
import GradleBuild.Files.Lookup
import GradleBuild.Files.Node
import GradleBuild.Files.Remove
import GradleBuild.Files.Tree
import GradleBuild.Gradle
import GradleBuild.Log.Event
import GradleBuild.Log.Level
import GradleBuild.Log.Settings
import GradleBuild.Machine
import GradleBuild.Main
import GradleBuild.Number.Binary64
import GradleBuild.Number.Integer
import GradleBuild.Number.Shortest
import GradleBuild.Options
import GradleBuild.Options.Arguments
import GradleBuild.Options.Usage
import GradleBuild.Path
import GradleBuild.Plan
import GradleBuild.Process.Child
import GradleBuild.Process.Command
import GradleBuild.Process.Executable
import GradleBuild.Process.Lines
import GradleBuild.Process.Run
import GradleBuild.Program
import GradleBuild.Proofs.ByName
import GradleBuild.Proofs.Channels
import GradleBuild.Proofs.Clearing
import GradleBuild.Proofs.CommandLines
import GradleBuild.Proofs.Confinement
import GradleBuild.Proofs.Containment
import GradleBuild.Proofs.Copiers
import GradleBuild.Proofs.CopyCalls
import GradleBuild.Proofs.Copying
import GradleBuild.Proofs.Creation
import GradleBuild.Proofs.Decimals
import GradleBuild.Proofs.Delivery
import GradleBuild.Proofs.DryRuns
import GradleBuild.Proofs.Effects
import GradleBuild.Proofs.Endings
import GradleBuild.Proofs.Entries
import GradleBuild.Proofs.ExactCopies
import GradleBuild.Proofs.ExactRemoval
import GradleBuild.Proofs.FailStop
import GradleBuild.Proofs.FailedCollects
import GradleBuild.Proofs.FilesRead
import GradleBuild.Proofs.Flags
import GradleBuild.Proofs.FreshOutputs
import GradleBuild.Proofs.Guarantees
import GradleBuild.Proofs.Layering
import GradleBuild.Proofs.Layers
import GradleBuild.Proofs.Layouts
import GradleBuild.Proofs.Leads
import GradleBuild.Proofs.LevelOptions
import GradleBuild.Proofs.ListForms
import GradleBuild.Proofs.Listings
import GradleBuild.Proofs.Loading
import GradleBuild.Proofs.LogLevels
import GradleBuild.Proofs.LosslessLines
import GradleBuild.Proofs.Making
import GradleBuild.Proofs.Merging
import GradleBuild.Proofs.Mirroring
import GradleBuild.Proofs.OneSetting
import GradleBuild.Proofs.Orders
import GradleBuild.Proofs.Origins
import GradleBuild.Proofs.Overrides
import GradleBuild.Proofs.Predictions
import GradleBuild.Proofs.Removal
import GradleBuild.Proofs.Roots
import GradleBuild.Proofs.Runs
import GradleBuild.Proofs.Schedules
import GradleBuild.Proofs.Segments
import GradleBuild.Proofs.Settings
import GradleBuild.Proofs.SourceTexts
import GradleBuild.Proofs.Spellings
import GradleBuild.Proofs.StaleDocuments
import GradleBuild.Proofs.Steps
import GradleBuild.Proofs.TomlTexts
import GradleBuild.Proofs.UnknownKeys
import GradleBuild.Proofs.Walks
import GradleBuild.Proofs.WorkingDirectories
import GradleBuild.Proofs.Writing
import GradleBuild.Proofs.WrittenForms
import GradleBuild.Text.Blank
import GradleBuild.Text.Lowercase
import GradleBuild.Text.Printable
import GradleBuild.Text.Quoted
import GradleBuild.Text.Ranges
import GradleBuild.Text.Split
import GradleBuild.Text.Utf8
import GradleBuild.Toml.Moment
import GradleBuild.Toml.Reader
import GradleBuild.Toml.Scanner
import GradleBuild.Toml.Table
import GradleBuild.Toml.Value
import GradleBuild.Toml.Word
