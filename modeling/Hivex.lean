import Hivex.HiveContract
import Hivex.HiveSetValues
import Hivex.HiveVisitSubtree
import Hivex.HiveReopen
import Hivex.HiveOpenBlocks
import Hivex.RegeditRoundTrip
import Hivex.HiveOffsets
import Hivex.HiveSiblings
import Hivex.HiveHash
import Hivex.HiveStrings
import Hivex.RegeditGrammar
import Hivex.HiveOpenEnds
import Hivex.HiveReplaceValue
import Hivex.HiveAddedChild
import Hivex.HiveDeletedSubtree
import Hivex.RegeditQuoting
import Hivex.HiveAllocateLayout
import Hivex.RegeditContinuation
import Hivex.RegeditSections
import Hivex.HiveExport
import Hivex.HiveShellCd
import Hivex.HiveExtents
import Hivex.HiveShellSetval
import Hivex.HiveDeleteCall
import Hivex.CallHistories
import Hivex.HiveFrame
import Hivex.HiveTree
