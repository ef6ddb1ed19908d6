import CompactAssembly.Artifact.Generation
import CompactAssembly.Draft.Image
import CompactAssembly.File.Output
import CompactAssembly.File.Tree
import CompactAssembly.Listing
import CompactAssembly.Proofs.Lookup
import CompactAssembly.Proofs.Offsets
import CompactAssembly.Proofs.SignatureHeap
import CompactAssembly.Proofs.Members
import CompactAssembly.Proofs.Extents
import CompactAssembly.Proofs.Indexing
import CompactAssembly.Proofs.Rendering
import CompactAssembly.Proofs.WriteBack
import CompactAssembly.Proofs.Distinct
import CompactAssembly.Proofs.Emission
import CompactAssembly.Proofs.Acceptance
import CompactAssembly.Proofs.Destinations
import CompactAssembly.Proofs.Resigned
import CompactAssembly.Proofs.TypeOrder
import CompactAssembly.Proofs.Declared
import CompactAssembly.Proofs.Delivery
import CompactAssembly.Proofs.Names
import CompactAssembly.Proofs.Listings
import CompactAssembly.Proofs.Positions
import CompactAssembly.Proofs.Leftovers
import CompactAssembly.Proofs.TokenWidth
import CompactAssembly.Proofs.Nesting
import CompactAssembly.Proofs.Detection
import CompactAssembly.Proofs.InternedTexts
import CompactAssembly.Proofs.ExactRows
import CompactAssembly.Proofs.Chaining
import CompactAssembly.Proofs.Payloads
import CompactAssembly.Proofs.OwnerWidth
import CompactAssembly.Proofs.Enclosing
import CompactAssembly.Proofs.StubFunctions
import CompactAssembly.Proofs.Letters
import CompactAssembly.Proofs.ShortestForms
import CompactAssembly.Proofs.SignatureTexts
import CompactAssembly.Proofs.Outputs
import CompactAssembly.Proofs.StaticNumbers
