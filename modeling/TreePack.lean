import TreePack.Compact.Decl
import TreePack.Tree.Forest
import TreePack.Tree.Name
import TreePack.Proofs.Steps
import TreePack.Proofs.Pieces
import TreePack.Proofs.Nodes
import TreePack.Proofs.Pointers
import TreePack.Proofs.Planning
import TreePack.Proofs.Plannable
import TreePack.Proofs.ReadBack
import TreePack.Proofs.BlockReads
import TreePack.Proofs.Placement
import TreePack.Proofs.Writing
import TreePack.Proofs.Tiling
import TreePack.Proofs.Relocation
import TreePack.Proofs.Rows
import TreePack.Proofs.Records
import TreePack.Proofs.Views
import TreePack.Proofs.StoredTrees
import TreePack.Proofs.Heights
import TreePack.Proofs.Reading
import TreePack.Proofs.Dumps
import TreePack.Proofs.PackedDumps
import TreePack.Proofs.Recognizing
import TreePack.Proofs.Marks
import TreePack.Proofs.Checking
import TreePack.Proofs.CheckedTrees
import TreePack.Proofs.Accepting
import TreePack.Proofs.Compacting
import TreePack.Proofs.Walks
import TreePack.Proofs.Branches
import TreePack.Proofs.Safety
import TreePack.Proofs.Locations
import TreePack.Proofs.Refusals
import TreePack.Proofs.Runs
import TreePack.Proofs.Filling
import TreePack.Proofs.Counting
import TreePack.Proofs.Accounts
import TreePack.Proofs.OldBytes
import TreePack.Proofs.Histories
import TreePack.Proofs.AlteredTrees
import TreePack.Proofs.Renaming
import TreePack.Proofs.AlikeTrees
import TreePack.Proofs.Subtrees
import TreePack.Proofs.Reservations
import TreePack.Proofs.Traversals
import TreePack.Proofs.LockStep
import TreePack.Proofs.ParentsFirst
import TreePack.Proofs.Nesting
import TreePack.Proofs.Tightness
import TreePack.Proofs.Registrations
import TreePack.Proofs.Codecs
import TreePack.Proofs.GuardedChecks
import TreePack.Proofs.LineTokens
import TreePack.Proofs.LineTexts
import TreePack.Proofs.BareLines
import TreePack.Proofs.FaithfulDumps
import TreePack.Proofs.ByteStores
