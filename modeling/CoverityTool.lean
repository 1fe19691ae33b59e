import CoverityTool.Visit
import CoverityTool.Batch
import CoverityTool.Traversal
import CoverityTool.Failures
import CoverityTool.Lib.Graphs
import CoverityTool.Pairing
import CoverityTool.Links
import CoverityTool.Lib.Utf8
import CoverityTool.Octets
import CoverityTool.Lib.Stores
import CoverityTool.Output
import CoverityTool.Walk
import CoverityTool.Handles
import CoverityTool.Objects
import CoverityTool.Reading
import CoverityTool.Lib.Machines
import CoverityTool.Sessions
import CoverityTool.Views
import CoverityTool.Notes
import CoverityTool.Changes
import CoverityTool.Stable
import CoverityTool.Check
import CoverityTool.Ends
import CoverityTool.Reach
import CoverityTool.Unchanging
import CoverityTool.Files
import CoverityTool.Folders
import CoverityTool.Batches
