import ResourceCode.Proofs.Catalog.Agreement
import ResourceCode.Proofs.Emission.Appending
import ResourceCode.Proofs.Emission.Durations
import ResourceCode.Proofs.Emission.Failing
import ResourceCode.Proofs.Emission.Hygiene
import ResourceCode.Proofs.Emission.Outline
import ResourceCode.Proofs.Emission.Precautions
import ResourceCode.Proofs.Emission.Templates
import ResourceCode.Proofs.Mirroring.Cycles
import ResourceCode.Proofs.Mirroring.Resemblance
import ResourceCode.Proofs.Options.Loading
import ResourceCode.Proofs.Reconstruction.Emission
import ResourceCode.Proofs.Source.Comments
import ResourceCode.Proofs.Source.Escaping
import ResourceCode.Proofs.Source.Indentation
import ResourceCode.Proofs.Source.Reading
