import Prfs.Nfs3Call
import Prfs.Nfs4Run
import Prfs.RecordStream
import Prfs.XdrAhead

namespace Prfs

/-- A record with its mark, as one fragment. -/
def marked (rep : Bytes) : Bytes := word (0x80000000 ||| UInt32.ofNat rep.length) ++ rep

namespace Framing

variable {σ : Type} {serve : Service σ UInt8 Bytes} {s : σ}

end Framing

namespace NfsV3

/-- A connection of the service, with whatever memory stands behind its messages. -/
def connection (h : Host) (beyond : Nat → UInt8) : Framing.Service NfsV3 UInt8 Bytes := fun v body =>
  if hb : body.length < 2 ^ 63 then session h v ⟨body, beyond, hb⟩ else none

end NfsV3

namespace NfsV4

/-- A connection of the service; `pos` is how its maps are walked in each of its calls. -/
def connection (h : Host) (hash : Bytes → UInt64) (pos : Nat → Nat → WalkOrder) (beyond : Nat → UInt8) :
    Framing.Service (Server4 × Nat) UInt8 Bytes := fun s body =>
  if hb : body.length < 2 ^ 63 then
    let (rep, u) := reply h hash (pos s.2) ⟨body, beyond, hb⟩ s.1
    some (rep, (u, s.2 + 1))
  else none

section Connection

variable {h : Host} {hash : Bytes → UInt64} {pos : Nat → Nat → WalkOrder} {beyond : Nat → UInt8}

end Connection

end NfsV4

end Prfs
