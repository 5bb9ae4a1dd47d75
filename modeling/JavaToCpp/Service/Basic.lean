/-
  The service.

  The service has one grammar in use with its version, a cache of outcomes and an archive of
  records.  With a store it also keeps the versions of its grammar there.
-/
import JavaToCpp.Cache.Basic
import JavaToCpp.Migration.Basic
import JavaToCpp.Record.Memory
import JavaToCpp.Service.Outcome

namespace JavaToCpp

namespace Service

/-- Records in memory, where each way of using them can be out of order with a message. -/
structure Archive where
  memory : Record.Memory
  createFault : Option Text := none
  findFault : Option Text := none
  queryFault : Option Text := none

end Service

structure Service where
  grammar : Grammar
  version : Int := 0
  cache : Cache Service.Outcome
  archive : Service.Archive
  /-- the number of bytes that a source can have, without a bound if it is not positive -/
  maxBytes : Int := 0
  store : Option Store := none

namespace Service

abbrev Action (ε α : Type) := ExceptT ε (StateM Service) α

end Service

end JavaToCpp
