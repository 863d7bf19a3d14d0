import InlineMarkup.Files.Tree
import InlineMarkup.Main
import InlineMarkup.Proofs.RoundTrip
import InlineMarkup.Proofs.Splice
import InlineMarkup.Proofs.Strictness
import InlineMarkup.Render.Limits
import InlineMarkup.Proofs.Totality
import InlineMarkup.Proofs.Window
import InlineMarkup.Proofs.Isolation
import InlineMarkup.Proofs.Trees
import InlineMarkup.Proofs.Residue
import InlineMarkup.Proofs.Soundness
import InlineMarkup.Proofs.Calls
import InlineMarkup.Proofs.Paths
import InlineMarkup.Proofs.FileTree
import InlineMarkup.Proofs.Tasks
import InlineMarkup.Proofs.Runs
import InlineMarkup.Proofs.Collecting
import InlineMarkup.Proofs.Outputs
import InlineMarkup.Proofs.Order
import InlineMarkup.Proofs.Progress
import InlineMarkup.Proofs.Tokens
import InlineMarkup.Proofs.Seeking
import InlineMarkup.Proofs.Closing
import InlineMarkup.Proofs.Faults
import InlineMarkup.Proofs.Pointing
import InlineMarkup.Proofs.Indenting
import InlineMarkup.Proofs.Pragmas
import InlineMarkup.Proofs.Matching
import InlineMarkup.Proofs.Comments
import InlineMarkup.Proofs.Fork
import InlineMarkup.Proofs.Following
import InlineMarkup.Proofs.Unsourced
import InlineMarkup.Proofs.Inserting
import InlineMarkup.Proofs.Replacing
import InlineMarkup.Proofs.VoidTags
import InlineMarkup.Proofs.Recording
import InlineMarkup.Proofs.Endings
import InlineMarkup.Proofs.Values
import InlineMarkup.Proofs.Lines
import InlineMarkup.Proofs.Quoting
import InlineMarkup.Proofs.Segments
import InlineMarkup.Proofs.Skipping
import InlineMarkup.Proofs.Buffers
import InlineMarkup.Proofs.Assignments
import InlineMarkup.Proofs.Listing
import InlineMarkup.Proofs.Failures
import InlineMarkup.Proofs.Bracing
