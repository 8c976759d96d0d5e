import Pincushion.Appends
import Pincushion.ReviewLoads
import Pincushion.OnScreen
import Pincushion.Creation
import Pincushion.Mirror
import Pincushion.Indices
import Pincushion.Sentinels
import Pincushion.Confirmations
import Pincushion.Header
import Pincushion.Residue
import Pincushion.Navigation
import Pincushion.PickerDate
import Pincushion.SignedIn
import Pincushion.SigningOut
import Pincushion.ReviewReads
import Pincushion.EmptyKeys
import Pincushion.StaleRows
import Pincushion.OwnRecords
import Pincushion.Cleared
import Pincushion.Isolation
import Pincushion.AppRecords
import Pincushion.FieldTexts
import Pincushion.Calculations
import Pincushion.RowCount
import Pincushion.FieldFilter
import Pincushion.Validation
import Pincushion.Breakdown
import Pincushion.EditSession
import Pincushion.MeasurementTexts
import Pincushion.DeliveryOrder
import Pincushion.EnumCaseString
import Pincushion.Overlay
import Pincushion.SortedDictionary
import Pincushion.Snapshot
import Pincushion.CompoundWrite
import Pincushion.AppliedWrites
import Pincushion.WriteTree
import Pincushion.WriteView
import Pincushion.Connection
import Pincushion.OwnView
import Pincushion.Unfailing
import Pincushion.KeyOrder
import Pincushion.SnapshotRoundTrip
import Pincushion.RecordFormat
import Pincushion.CanonicalView
import Pincushion.StoredRecords
import Pincushion.DeviceRecords
import Pincushion.ImmutableDictionary
import Pincushion.SyncViews
