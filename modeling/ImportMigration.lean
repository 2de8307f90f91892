import ImportMigration.Disk.Change
import ImportMigration.Disk.Session
import ImportMigration.Import.Pattern
import ImportMigration.Main
import ImportMigration.Proofs.ConfigPlace
import ImportMigration.Proofs.Console
import ImportMigration.Proofs.Edits
import ImportMigration.Proofs.Leftovers
import ImportMigration.Proofs.Order
import ImportMigration.Proofs.Division
import ImportMigration.Proofs.Unchanged
import ImportMigration.Proofs.NoticeOrder
import ImportMigration.Proofs.ConfigRoot
import ImportMigration.Proofs.AllOrNothing
import ImportMigration.Proofs.Expression
import ImportMigration.Proofs.Locality
import ImportMigration.Proofs.SingleImport
import ImportMigration.Proofs.Literal
import ImportMigration.Proofs.AnyOrder
import ImportMigration.Proofs.Unambiguous
import ImportMigration.Proofs.FileNames
import ImportMigration.Proofs.Joining
import ImportMigration.Proofs.ConfiguredRoot
