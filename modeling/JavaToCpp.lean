import JavaToCpp.Cache.Typed
import JavaToCpp.Http.Api
import JavaToCpp.Json.Exact
import JavaToCpp.Main
import JavaToCpp.Server.Exchange
import JavaToCpp.Proofs.Typing.Returns
import JavaToCpp.Proofs.Typing.Assigned
import JavaToCpp.Proofs.Token.Progress
import JavaToCpp.Proofs.Java.Spacing
import JavaToCpp.Proofs.Cpp.Order
import JavaToCpp.Proofs.Grammar.Comparison
import JavaToCpp.Proofs.Migration.Readback
import JavaToCpp.Proofs.Migration.Freshness
import JavaToCpp.Proofs.Chart.Difference
import JavaToCpp.Proofs.Chart.Renaming
import JavaToCpp.Proofs.Service.Overtaken
import JavaToCpp.Proofs.Service.Requests
import JavaToCpp.Proofs.Pipeline.Layout
import JavaToCpp.Proofs.Service.Identity
import JavaToCpp.Proofs.Typing.Members
import JavaToCpp.Proofs.Cpp.Numbers
import JavaToCpp.Proofs.Record.Paging
import JavaToCpp.Proofs.Cache.Expiry
import JavaToCpp.Proofs.Settings.Address
import JavaToCpp.Proofs.Service.Recorded
import JavaToCpp.Proofs.Chart.Moments
import JavaToCpp.Proofs.Java.Lists
import JavaToCpp.Proofs.Json.Maps
