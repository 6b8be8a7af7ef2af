import Prfs.Nfs4State

namespace Prfs

namespace NfsV4

variable {v : NfsV4} {pos : WalkOrder}

end NfsV4

end Prfs
