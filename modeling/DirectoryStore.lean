import DirectoryStore.Tree.Config
import DirectoryStore.Tree.Diff
import DirectoryStore.Tree.Load
import DirectoryStore.Tree.Memory
import DirectoryStore.Tree.Search
import DirectoryStore.Filter.Text
import DirectoryStore.Proofs.Memory.Links
import DirectoryStore.Proofs.Memory.Relink
import DirectoryStore.Proofs.Memory.Lookup
import DirectoryStore.Proofs.Memory.Outcome
import DirectoryStore.Proofs.Tree.Calls
import DirectoryStore.Proofs.Memory.Run
import DirectoryStore.Proofs.Memory.Consistency
import DirectoryStore.Proofs.Attribute.Lookup
import DirectoryStore.Proofs.Entry.Edits
import DirectoryStore.Proofs.Entry.Exactness
import DirectoryStore.Proofs.Memory.Content
import DirectoryStore.Proofs.Memory.Patch
import DirectoryStore.Proofs.Memory.Siblings
import DirectoryStore.Proofs.Memory.Turns
import DirectoryStore.Proofs.Memory.Difference
import DirectoryStore.Proofs.Text.Utf8
import DirectoryStore.Proofs.Text.Hex
import DirectoryStore.Proofs.Text.Base64
import DirectoryStore.Proofs.Name.Grammar
import DirectoryStore.Proofs.Name.Spelling
import DirectoryStore.Proofs.Ldif.Lines
import DirectoryStore.Proofs.Ldif.Chunks
import DirectoryStore.Proofs.Ldif.RoundTrip
import DirectoryStore.Proofs.Ldif.Changes
import DirectoryStore.Proofs.Filter.Grammar
import DirectoryStore.Proofs.Filter.RoundTrip
import DirectoryStore.Proofs.Filter.Patterns
import DirectoryStore.Proofs.Filter.Matching
import DirectoryStore.Proofs.Filter.Substrings
import DirectoryStore.Proofs.Filter.Spelling
import DirectoryStore.Proofs.Files.Objects
import DirectoryStore.Proofs.Files.Places
import DirectoryStore.Proofs.Files.Spots
import DirectoryStore.Proofs.Files.Layout
import DirectoryStore.Proofs.Files.Contents
import DirectoryStore.Proofs.Files.Reading
import DirectoryStore.Proofs.Files.Changing
import DirectoryStore.Proofs.Files.Moving
import DirectoryStore.Proofs.Memory.Stores
import DirectoryStore.Proofs.Tree.Mirrors
import DirectoryStore.Proofs.Files.Walk
import DirectoryStore.Proofs.Files.Opening
import DirectoryStore.Proofs.Ldif.Readable
import DirectoryStore.Proofs.Ldif.Rewriting
import DirectoryStore.Proofs.Tree.Exchange
import DirectoryStore.Proofs.Files.Handles
import DirectoryStore.Proofs.Files.Canonical
import DirectoryStore.Proofs.Memory.Failure
import DirectoryStore.Proofs.Memory.Names
import DirectoryStore.Proofs.Files.Grounded
import DirectoryStore.Proofs.Memory.Generations
import DirectoryStore.Proofs.Files.Failure
import DirectoryStore.Proofs.Files.Interruption
import DirectoryStore.Proofs.Memory.Mapping
import DirectoryStore.Proofs.Memory.Rerooting
import DirectoryStore.Proofs.Ldif.Layout
import DirectoryStore.Proofs.Name.Accepted
import DirectoryStore.Proofs.Name.Order
import DirectoryStore.Proofs.Memory.Grafting
import DirectoryStore.Proofs.Memory.Replication
import DirectoryStore.Proofs.Ldif.Concatenation
import DirectoryStore.Proofs.Memory.Commuting
import DirectoryStore.Proofs.Files.Links
import DirectoryStore.Proofs.Files.Sparing
import DirectoryStore.Proofs.Files.Foreign
import DirectoryStore.Proofs.Files.Namesakes
import DirectoryStore.Proofs.Entry.Spelling
import DirectoryStore.Proofs.Tree.Orderly
import DirectoryStore.Proofs.Tree.Twins
import DirectoryStore.Proofs.Tree.Histories
import DirectoryStore.Proofs.Memory.Listing
import DirectoryStore.Proofs.Memory.Searching
import DirectoryStore.Proofs.Ldif.Reporting
import DirectoryStore.Proofs.Ldif.Untyped
import DirectoryStore.Proofs.Entry.Pointwise
import DirectoryStore.Proofs.Memory.Copying
import DirectoryStore.Proofs.Memory.LoadOrder
import DirectoryStore.Proofs.Attribute.Histories
import DirectoryStore.Proofs.Files.Listing
import DirectoryStore.Proofs.Files.FileNames
