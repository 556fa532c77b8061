import GroceryListApp.Accounts.AccountRecords
import GroceryListApp.Accounts.OwnContents
import GroceryListApp.Accounts.OwnCounters
import GroceryListApp.Accounts.OwnEntries
import GroceryListApp.Accounts.OwnReadable
import GroceryListApp.Accounts.OwnSubtrees
import GroceryListApp.Accounts.RenameCut
import GroceryListApp.Accounts.RenamesCompose
import GroceryListApp.Controller.AddScreens
import GroceryListApp.Controller.AppCalls
import GroceryListApp.Controller.EmailReload
import GroceryListApp.Controller.GroupScreen
import GroceryListApp.Controller.GroupSelection
import GroceryListApp.Controller.RowActions
import GroceryListApp.Controller.RowLabels
import GroceryListApp.Controller.Session
import GroceryListApp.Controller.UserSearches
import GroceryListApp.Groups.Authority
import GroceryListApp.Groups.CheckMarks
import GroceryListApp.Groups.Creation
import GroceryListApp.Groups.Deletion
import GroceryListApp.Groups.Items
import GroceryListApp.Groups.Leaving
import GroceryListApp.Groups.ListCounters
import GroceryListApp.Groups.MemberAccounts
import GroceryListApp.Groups.Membership
import GroceryListApp.Groups.Observers
import GroceryListApp.Groups.ReadOrder
import GroceryListApp.Groups.Readable
import GroceryListApp.Realtime.Balance
import GroceryListApp.Realtime.Device
import GroceryListApp.Services.Counters
import GroceryListApp.Services.NameUses
import GroceryListApp.Services.ScanDebts
import GroceryListApp.Services.UsernameScans
import GroceryListApp.Accounts.IndexBalance
