import SwaggerForge.Main
import SwaggerForge.Proofs.Cache
import SwaggerForge.Proofs.Definitions
import SwaggerForge.Proofs.Walk
import SwaggerForge.Proofs.Places
import SwaggerForge.Proofs.Sightings
import SwaggerForge.Proofs.Flattening
import SwaggerForge.Proofs.ShowConditions
import SwaggerForge.Proofs.Operations
import SwaggerForge.Proofs.Passes
import SwaggerForge.Proofs.References
import SwaggerForge.Proofs.Closure
import SwaggerForge.Proofs.Groups
import SwaggerForge.Proofs.Resolution
import SwaggerForge.Proofs.FileTypes
import SwaggerForge.Proofs.Uploads
import SwaggerForge.Proofs.Sharing
import SwaggerForge.Proofs.FormFiles
import SwaggerForge.Proofs.Placement
import SwaggerForge.Proofs.Checks
import SwaggerForge.Proofs.Acceptance
import SwaggerForge.Proofs.Notes
import SwaggerForge.Proofs.Reporting
import SwaggerForge.Proofs.Polymorphism
import SwaggerForge.Proofs.Credentials
import SwaggerForge.Proofs.Silence
import SwaggerForge.Proofs.Idempotence
import SwaggerForge.Proofs.SharedKeys
import SwaggerForge.Proofs.NoteOrder
import SwaggerForge.Proofs.Reordering
import SwaggerForge.Proofs.PathItems
import SwaggerForge.Proofs.Slots
import SwaggerForge.Proofs.Clashes
import SwaggerForge.Proofs.Descriptions
import SwaggerForge.Proofs.TypedDefaults
import SwaggerForge.Proofs.Defaults
import SwaggerForge.Proofs.Options
import SwaggerForge.Proofs.DepthBound
import SwaggerForge.Proofs.Inheritance
import SwaggerForge.Proofs.Restrictions
import SwaggerForge.Proofs.Triggers
import SwaggerForge.Proofs.Promotion
import SwaggerForge.Proofs.Annotations
import SwaggerForge.Proofs.Addresses
import SwaggerForge.Proofs.Retyping
import SwaggerForge.Proofs.PassOrder
import SwaggerForge.Proofs.PickSources
import SwaggerForge.Proofs.Lacking
import SwaggerForge.Proofs.Unannotated
import SwaggerForge.Proofs.PickLists
import SwaggerForge.Proofs.Exposure
import SwaggerForge.Proofs.GroupTree
import SwaggerForge.Proofs.Mirroring
import SwaggerForge.Proofs.Scalars
import SwaggerForge.Proofs.PropertyLists
import SwaggerForge.Proofs.NumberTexts
import SwaggerForge.Proofs.CanonicalOptions
import SwaggerForge.Proofs.BeyondCuts
import SwaggerForge.Proofs.Termination
import SwaggerForge.Proofs.Environment
import SwaggerForge.Proofs.Paragraphs
import SwaggerForge.Proofs.JoinedConditions
import SwaggerForge.Proofs.Equality
import SwaggerForge.Proofs.Unions
