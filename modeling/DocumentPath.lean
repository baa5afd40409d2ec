import DocumentPath.Main
import DocumentPath.Proofs.Adjacency.Fusing
import DocumentPath.Proofs.Evaluation.Comparisons
import DocumentPath.Proofs.Evaluation.Containers
import DocumentPath.Proofs.Evaluation.Mixed
import DocumentPath.Proofs.Forms.Paths
import DocumentPath.Proofs.Groups.Termination
import DocumentPath.Proofs.Infix.Numerals
import DocumentPath.Proofs.Json.Narrowing
import DocumentPath.Proofs.Literals.Conservation
import DocumentPath.Proofs.Literals.Decoding
import DocumentPath.Proofs.Literals.Scanning
import DocumentPath.Proofs.Operands.Counting
import DocumentPath.Proofs.Outlines.Locality
import DocumentPath.Proofs.Outlines.Quoting
import DocumentPath.Proofs.References.Agreement
import DocumentPath.Proofs.Removal.Completeness
import DocumentPath.Proofs.Removal.Partition
import DocumentPath.Proofs.Templates.Building
import DocumentPath.Proofs.Traversal.Concrete
import DocumentPath.Proofs.Traversal.Enumeration
import DocumentPath.Proofs.Writing.Failure
import DocumentPath.Proofs.Writing.Resolution
import DocumentPath.Proofs.Writing.Single
