import Mathlib.Data.Prod.Lex
import Prfs.Lifetimes
import Prfs.OrdMap
import Prfs.Store

namespace Prfs

/-- A provider in the registry: the plugin whose object it is, and the interface and name it is provided under. -/
structure Impl where
  plugin : Nat
  key : Bytes ×ₗ Bytes
  deriving DecidableEq

/-- The service registry: providers under (interface id, name), in ascending order of these. -/
abbrev Registry := OrdMap (Bytes ×ₗ Bytes) Impl

namespace Registry

def provide (m : Registry) (impl : Impl) : Registry := m.put impl.key impl

def withdraw (m : Registry) (key : Bytes ×ₗ Bytes) : Registry := m.del key

def resolveAll (m : Registry) (id : Bytes) : List Impl :=
  (m.entries.filter fun e => (ofLex e.1).1 = id).map Prod.snd

end Registry

/-- "prfs.service/1" -/
def IService.ID : Bytes := ascii ['p', 'r', 'f', 's', '.', 's', 'e', 'r', 'v', 'i', 'c', 'e', '/', '1']

def ABI : UInt32 := 2

/-- What is found in a shared object: the answer of `prfs_abi`, the two other entry points, and what its plugin provides. -/
structure Library where
  abi : Option UInt32
  create : Bool
  destroy : Bool
  provides : List (Bytes ×ₗ Bytes)

structure LoaderEntry where
  plugin : Nat
  provides : List (Bytes ×ₗ Bytes)
  destroy : Bool
  handle : Option Nat

/-- What the loader is answerable for. -/
inductive Resource
  | library (handle : Nat)
  | plugin (plugin : Nat)
  deriving DecidableEq

/-- The host's registry, the loader's tables, and how many handles and plugins there have been. -/
structure Loader where
  registry : Registry := .empty
  entries : List LoaderEntry := []
  started : List Impl := []
  handles : Nat := 0
  plugins : Nat := 0

namespace Loader

abbrev Events := List (Lifetime Resource Impl)

/-- The constructor of a plugin provides its objects. -/
def create (l : Loader) (keys : List (Bytes ×ₗ Bytes)) : Loader :=
  { l with
    registry := keys.foldl (fun m key => m.provide ⟨l.plugins, key⟩) l.registry
    plugins := l.plugins + 1 }

/-- `lib` is what `dlopen` finds. -/
def load (l : Loader) : Option Library → Loader × Events
  | none => (l, [])
  | some lib =>
    let h := l.handles
    let l := { l with handles := h + 1 }
    if lib.abi = none ∨ lib.create = false ∨ lib.destroy = false then (l, [.acquire (.library h), .release (.library h)])
    else if lib.abi ≠ some ABI then (l, [.acquire (.library h), .release (.library h)])
    else
      let p := l.plugins
      let l := l.create lib.provides
      ({ l with entries := l.entries ++ [⟨p, lib.provides, true, some h⟩] }, [.acquire (.library h), .acquire (.plugin p)])

/-- A plugin of the caller, which has already provided its objects. -/
def adopt (l : Loader) (keys : List (Bytes ×ₗ Bytes)) : Loader × Events :=
  let p := l.plugins
  let l := l.create keys
  ({ l with entries := l.entries ++ [⟨p, keys, false, none⟩] }, [.lend (.plugin p)])

/-- `ok` tells which of the services come up. -/
def startServices (l : Loader) (ok : Impl → Bool) : Loader × Events :=
  let services := l.registry.resolveAll IService.ID
  ({ l with started := l.started ++ services.filter ok }, services.map fun s => if ok s then .start s else .call s)

def stopAll (l : Loader) : Loader × Events := ({ l with started := [] }, l.started.reverse.map .stop)

/-- The destructor of a plugin withdraws its objects. -/
def destroyEntry (l : Loader) (e : LoaderEntry) : Loader × Events :=
  let closed : Events := e.handle.toList.map fun h => .release (.library h)
  if e.destroy then
    ({ l with registry := e.provides.foldl Registry.withdraw l.registry }, .release (.plugin e.plugin) :: closed)
  else (l, closed)

def destroyAll (l : Loader) : List LoaderEntry → Loader × Events
  | [] => (l, [])
  | e :: es =>
    let x := l.destroyEntry e
    let y := x.1.destroyAll es
    (y.1, x.2 ++ y.2)

/-- The loader's own destructor. -/
def destruct (l : Loader) : Loader × Events :=
  let x := l.stopAll
  let y := x.1.destroyAll x.1.entries.reverse
  (y.1, x.2 ++ y.2)

/-- What the program asks of the loader, with what the system answers. -/
inductive Action
  | load (lib : Option Library)
  | adopt (keys : List (Bytes ×ₗ Bytes))
  | startServices (ok : Impl → Bool)
  | stopAll

def step (l : Loader) : Action → Loader × Events
  | .load lib => l.load lib
  | .adopt keys => l.adopt keys
  | .startServices ok => l.startServices ok
  | .stopAll => l.stopAll

def run (l : Loader) : List Action → Loader × Events
  | [] => (l, [])
  | a :: as =>
    let x := l.step a
    let y := x.1.run as
    (y.1, x.2 ++ y.2)

end Loader

end Prfs
