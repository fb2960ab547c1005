import TifaSoccer.AccountTheorems
import TifaSoccer.CommentTheorems
import TifaSoccer.ConsistencyTheorems
import TifaSoccer.Database.EnumeratorTheorems
import TifaSoccer.Database.KeyOrder
import TifaSoccer.Database.SnapshotTheorems
import TifaSoccer.Database.UpdateTheorems
import TifaSoccer.Database.WriteTreeTheorems
import TifaSoccer.GhostTheorems
import TifaSoccer.IsolationTheorems
import TifaSoccer.OperationTheorems
import TifaSoccer.PasswordTheorems
import TifaSoccer.PathTheorems
import TifaSoccer.ProfileTheorems
import TifaSoccer.ReadbackTheorems
import TifaSoccer.RefreshTheorems
import TifaSoccer.RosterTheorems
import TifaSoccer.RoundTripTheorems
import TifaSoccer.ScreenTheorems
import TifaSoccer.ViewModelTheorems
import TifaSoccer.FormTheorems
