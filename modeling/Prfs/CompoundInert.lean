import Prfs.CompoundStatus
import Prfs.OpInert

namespace Prfs

namespace NfsV4

namespace Call4

variable {h : Host} {hash : Bytes → UInt64} {pos : Nat → WalkOrder} {p : WalkOrder} {m : Msg} {c : Call4}
  {left done : Nat} {t : Step4}

end Call4

end NfsV4

end Prfs
