import ColumnTypes.Diagnosis
import ColumnTypes.Main
import ColumnTypes.Registry.Shared
import ColumnTypes.Proofs.Closure
import ColumnTypes.Proofs.Resolution
import ColumnTypes.Proofs.WellFormed
import ColumnTypes.Proofs.History
import ColumnTypes.Proofs.Shape
import ColumnTypes.Proofs.Obtainable
import ColumnTypes.Proofs.MergeLaws
import ColumnTypes.Proofs.MostSpecific
import ColumnTypes.Proofs.Closed
import ColumnTypes.Proofs.Columns
import ColumnTypes.Proofs.RowOrder
import ColumnTypes.Proofs.Rescan
import ColumnTypes.Proofs.Registration
import ColumnTypes.Proofs.Strict
import ColumnTypes.Proofs.References
import ColumnTypes.Proofs.Defects
import ColumnTypes.Proofs.Refusals
import ColumnTypes.Proofs.Preference
import ColumnTypes.Proofs.JsonText
import ColumnTypes.Proofs.Leaves
import ColumnTypes.Proofs.Records
import ColumnTypes.Proofs.Accepted
import ColumnTypes.Proofs.Metadata
import ColumnTypes.Proofs.Caches
import ColumnTypes.Proofs.Foreign
import ColumnTypes.Proofs.Extension
import ColumnTypes.Proofs.Encoding
import ColumnTypes.Proofs.Lookups
import ColumnTypes.Proofs.Flattening
import ColumnTypes.Proofs.Rearrangement
import ColumnTypes.Proofs.SavedText
import ColumnTypes.Proofs.Inspection
import ColumnTypes.Proofs.Canonical
import ColumnTypes.Proofs.Supertypes
import ColumnTypes.Proofs.SharedPreference
import ColumnTypes.Proofs.Hashing
import ColumnTypes.Proofs.Interchange
import ColumnTypes.Proofs.Sorting
import ColumnTypes.Proofs.WholeColumns
import ColumnTypes.Proofs.DiscoveryOrder
import ColumnTypes.Proofs.ChosenPreference
