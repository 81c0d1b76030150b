import Sypl.GoString
import Sypl.Strings
import Sypl.Level
import Sypl.Fields
import Sypl.Message
import Sypl.Processor
import Sypl.Options
import Sypl.Logger
import Sypl.Dispatch
import Sypl.Tabwriter
import Sypl.Formatter
import Sypl.ElasticSearch
import Sypl.Slice
import Sypl.Loggers
import Sypl.Values
