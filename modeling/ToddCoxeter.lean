import ToddCoxeter.Enumeration.Access
import ToddCoxeter.Word.Parts
import ToddCoxeter.Proofs.Checked.Run
import ToddCoxeter.Proofs.Enumeration.Cap
import ToddCoxeter.Proofs.Enumeration.Conservation
import ToddCoxeter.Proofs.Enumeration.Correctness
import ToddCoxeter.Proofs.Enumeration.Edges
import ToddCoxeter.Proofs.Enumeration.Labels
import ToddCoxeter.Proofs.Enumeration.Passes
import ToddCoxeter.Proofs.Enumeration.Regular
import ToddCoxeter.Proofs.Enumeration.Reruns
import ToddCoxeter.Proofs.Memo
import ToddCoxeter.Proofs.Presentation.Printing
import ToddCoxeter.Proofs.Relator.Faults
import ToddCoxeter.Proofs.Table.Columns
import ToddCoxeter.Proofs.Table.Congruence
import ToddCoxeter.Proofs.Table.Incidence
import ToddCoxeter.Proofs.Table.Retracing
import ToddCoxeter.Proofs.Table.UnionFind
import ToddCoxeter.Proofs.Word.InPlace
