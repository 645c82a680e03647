import Codemod.Main
import Codemod.Script
import Codemod.Proofs.Edit.Admissible
import Codemod.Proofs.Edit.Refusal
import Codemod.Proofs.Edit.Revision
import Codemod.Proofs.Run.Unedited
import Codemod.Proofs.Run.Endless
import Codemod.Proofs.Run.Renaming
import Codemod.Proofs.Run.Standstill
import Codemod.Proofs.Run.Idempotence
import Codemod.Proofs.Run.Reorder
import Codemod.Proofs.Run.Reports
import Codemod.Proofs.Tree.Reached
import Codemod.Proofs.Walk.Halting
import Codemod.Proofs.Walk.Preorder
import Codemod.Proofs.Print.Ink
import Codemod.Proofs.Cli.Stopping
import Codemod.Proofs.Print.Remaining
import Codemod.Proofs.Run.Flattening
import Codemod.Proofs.Run.Removal
import Codemod.Proofs.Run.Deciding
import Codemod.Proofs.Run.Wrapping
import Codemod.Proofs.Catalog.Carrying
import Codemod.Proofs.Catalog.Enumeration
import Codemod.Proofs.Catalog.Types
import Codemod.Proofs.Tree.Labels
import Codemod.Proofs.Text.Splicing
import Codemod.Proofs.Text.Position
import Codemod.Proofs.Cli.Exclusion
import Codemod.Proofs.Catalog.Names
import Codemod.Proofs.Diff.Unified
import Codemod.Proofs.Print.Chained
import Codemod.Proofs.Text.Quoted
