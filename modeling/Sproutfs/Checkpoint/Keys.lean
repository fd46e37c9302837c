import Sproutfs.Control.Record
import Sproutfs.Lib.Path

/-!
# The keys of a VM's objects

A VM's control record and its checkpoints are objects of one store, under keys that its identity names
(`control/tenant.go`, `control/client.go`, `checkpoint/store.go`, `checkpoint/reclaim.go`). A key is the
list of its characters; a string that is not UTF-8 is no key.
-/

namespace Sproutfs.Control

def tenantPrefix : List Char := "tenants/".toList

def recordPrefix : List Char := "control/".toList

/-- `strings.Cut` at the first slash. -/
def cut (s : List Char) : Option (List Char × List Char) :=
  if '/' ∈ s then some (s.takeWhile (· ≠ '/'), (s.dropWhile (· ≠ '/')).drop 1) else none

/-- The tenant, empty for none, and the name. -/
def splitID (id : List Char) : List Char × List Char := (cut id).getD ([], id)

def tenantOf (id : List Char) : List Char := (splitID id).1

def tenantNamespace (tenant : List Char) : List Char :=
  if tenant = [] then [] else tenantPrefix ++ tenant ++ ['/']

/-- `Namespace`. -/
def namespaceOf (id : List Char) : List Char := tenantNamespace (tenantOf id)

def recordName (id : List Char) : List Char := namespaceOf id ++ recordPrefix ++ (splitID id).2

/-- The tenant whose namespace a key lies in, and the rest of the key. -/
def cutNamespace (key : List Char) : Option (List Char × List Char) :=
  if tenantPrefix.isPrefixOf key then
    (cut (key.drop tenantPrefix.length)).filter fun p => validTenant p.1
  else some ([], key)

def newObjectKey (value : List Char) : Option (List Char) :=
  if value = [] ∨ 1024 < byteLength value ∨ '\x00' ∈ value then none else some value

/-- The deployment's own part of every key, which ends in a slash unless it is empty. -/
def deploymentBase (objectPrefix : List Char) : List Char :=
  if objectPrefix ≠ [] ∧ objectPrefix.getLast? ≠ some '/' then objectPrefix ++ ['/'] else objectPrefix

/-- The key of a VM's control record. -/
def key (objectPrefix vm : List Char) : Option (List Char) :=
  if validID vm then newObjectKey (deploymentBase objectPrefix ++ recordName vm) else none

end Sproutfs.Control

namespace Sproutfs.Checkpoint

open Control

section

variable (objectPrefix vm : List Char)

/-- What `Used` lists. -/
def vmPrefix : List Char :=
  deploymentBase objectPrefix ++ namespaceOf vm ++ "vm/".toList ++ (splitID vm).2 ++ ['/']

/-- What `DeleteVM` lists. -/
def deletedPrefix : List Char := vmPrefix objectPrefix vm ++ "ckpt/".toList

/-- What a sweep lists of one checkpoint. -/
def checkpointPrefix (sequence : Nat) : List Char :=
  vmPrefix objectPrefix vm ++ "ckpt/".toList ++ Nat.toDigits 10 sequence ++ ['/']

/-- The key of an object of a checkpoint. -/
def objectKey (sequence : Nat) (name : List Char) : Option (List Char) :=
  if Control.validID vm then newObjectKey (checkpointPrefix objectPrefix vm sequence ++ name) else none

def indexKey (sequence : Nat) : Option (List Char) := objectKey objectPrefix vm sequence "index".toList

def partKey (sequence number : Nat) : Option (List Char) :=
  objectKey objectPrefix vm sequence ("part/".toList ++ Nat.toDigits 10 number)

def supersededPartKey (sequence : Nat) : Option (List Char) :=
  objectKey objectPrefix vm sequence "pack/last".toList

/-- A key of the VM: that of its record, or of any object of one of its checkpoints. -/
def Keyed (k : List Char) : Prop :=
  key objectPrefix vm = some k ∨ ∃ sequence name, objectKey objectPrefix vm sequence name = some k

end

end Sproutfs.Checkpoint
